import FlowAssembly.Proofs.Reaching
import FlowAssembly.Proofs.Tidiness

/-!
# Outputs

Only what replies is ever given an output, and what was given one keeps it: an
output is set where it is pending, and it is pending where there is none yet.
And no output is forgotten. What needs one and has none is at any time what
the pending output of its builder belongs to, or that of the branch it stands
in, so it is bound when the flow goes on or the branches meet; a flow or a
branch that ends before that is refused.
-/

namespace FlowAssembly

open Assembly

namespace Component

/-- Whether it needs an output and has none. -/
def owes (x : Component) : Bool :=
  x.replies && x.requires && x.output?.isNone

theorem owes_withOutput (target : Target) (x : Component) :
    (x.withOutput target).owes = false := by
  cases x with
  | channel c => rfl
  | endpoint e => simp [owes, withOutput, output?]
  | source s => simp [owes, withOutput, output?]

theorem owes_endpoint {e : Endpoint} (h : e.handler.requiresReply = false) :
    (Component.endpoint e).owes = false := by
  simp [owes, requires, h]

theorem owes_boundTo {x : Component} (h : x.owes = false) {key : ComponentKey}
    {target : Target} :
    (x.boundTo key target).owes = false := by
  unfold boundTo
  split
  · exact owes_withOutput target x
  · exact h

end Component

theorem Builder.owes_bound (b : Builder) {target : Target} {x : Component}
    (h : x.owes = false) :
    (b.bound target x).owes = false := by
  unfold bound
  cases b.cursor.pending with
  | none => exact h
  | some output => exact Component.owes_boundTo h

/-! ## What a turn does to outputs -/

/-- Where a component comes from: it stood there before, it has the next key,
or it stood there without an output. -/
inductive Origin (cs : List Component) (n : Nat) : Component → Prop
  | stood {x : Component} : x ∈ cs → Origin cs n x
  | made {x : Component} : x.key = ⟨n⟩ → x.output? = none → Origin cs n x
  | bound {x : Component} {target : Target} : x ∈ cs → x.replies = true →
      x.output? = none → Origin cs n (x.withOutput target)

theorem Origin.mono {cs cs' : List Component} {n : Nat} {x : Component}
    (h : Origin cs n x) (hs : cs ⊆ cs') :
    Origin cs' n x := by
  cases h with
  | stood hx => exact .stood (hs hx)
  | made hk ho => exact .made hk ho
  | bound hx hr ho => exact .bound (hs hx) hr ho

theorem Desk.isWorker_loose {d : Desk} {x : Component} (h : x ∈ d.loose) :
    x.isWorker = false := by
  rcases List.mem_append.1 h with h | h
  · obtain ⟨c, -, rfl⟩ := List.mem_map.1 h
    rfl
  · obtain ⟨m, -, h⟩ := List.mem_flatMap.1 h
    unfold Meeting.components at h
    split at h
    · obtain rfl := List.mem_singleton.1 h
      rfl
    · cases h

section

variable {own : Channel → Bool} {brought : Channel → Prop} {d d' : Desk}
  {ds : List Desk} {deal : Deal} {link : Option Link} {m : Moment} {n n' : Nat}

namespace Tidy

/-- The account of a turn sets an output only of what replies and has none. -/
theorem settled (h : Tidy own brought (d :: ds) n)
    (he : deal.Explains brought d n d' n') {y : Component} (hy : y ∈ d.registered) :
    y.settled deal.bound = y ∨
    y.replies = true ∧ y.output? = none ∧
    ∃ target, y.settled deal.bound = y.withOutput target := by
  cases hb : deal.bound with
  | none => exact .inl rfl
  | some binding =>
      obtain ⟨output, target⟩ := binding
      by_cases hk : y.key = output.component
      · obtain ⟨x, hx, hbelongs⟩ := h.awaited he (Option.mem_def.2 hb)
        have hworker := Component.isWorker_of_replies hbelongs.replies
        have hxy : x = y := h.clear_registered.eq
          (he.split.symm.subset (List.mem_append_left _ hx)) hy
          (Component.marked_of_isWorker hworker) (hbelongs.key.trans hk.symm)
        exact .inr ⟨hxy ▸ hbelongs.replies, hxy ▸ hbelongs.unset, target, if_pos hk⟩
      · exact .inl (Component.boundTo_of_ne hk target)

theorem work_origin (h : Tidy own brought (d :: ds) n)
    (hw : Work brought d n link d' n') {x : Component} (hx : x ∈ d'.registered)
    (hworker : x.isWorker = true) : Origin d.registered n x := by
  obtain ⟨deal, he⟩ := hw.explains (h.sound d List.mem_cons_self).meets
  rcases (h.mem_registered he (Component.marked_of_isWorker hworker)).1 hx
    with ⟨y, hy, rfl⟩ | hused
  · rcases h.settled he hy with heq | ⟨hr, ho, target, heq⟩
    · rw [heq]
      exact .stood hy
    · rw [heq]
      exact .bound hy hr ho
  · rcases List.mem_append.1 (he.loose.subset (List.mem_append_left _ hused))
      with hloose | hnew
    · rw [Desk.isWorker_loose hloose] at hworker
      cases hworker
    · have hnewcomer := he.new
      rw [Option.mem_toList.1 hnew] at hnewcomer
      cases hnewcomer with
      | made hk ho => exact .made hk ho
      | copy => cases hworker

/-- An endpoint or a source that stands on the desks behind a turn stood there
before as it is, or it is new, or its output was set, which it did not
have. -/
theorem turn_origin (h : Tidy own brought ds n) (ht : Turn brought ds n m n')
    {x : Component} (hx : x ∈ standing m.desks) (hworker : x.isWorker = true) :
    Origin (standing ds) n x := by
  cases ht with
  | @work d d' ds _ _ _ hw =>
      rw [standing_cons, List.mem_append] at hx
      rw [standing_cons]
      rcases hx with hx | hx
      · exact (h.work_origin hw hx hworker).mono (List.subset_append_left _ _)
      · exact .stood (List.mem_append_right _ hx)
  | @push d ds c rest _ _ =>
      rw [standing_cons, Desk.registered_plain, List.mem_append] at hx
      rcases hx with hx | hx
      · obtain rfl := List.mem_singleton.1 hx
        cases hworker
      · exact .stood hx
  | @pop b d ds _ =>
      refine .stood ?_
      simp only [standing_cons, Desk.registered, Desk.branched, List.flatMap_append,
        List.flatMap_singleton, List.flatMap_nil, List.append_nil, List.mem_append]
        at hx ⊢
      rcases hx with (hx | hx | hx) | hx
      · exact .inr (.inl (.inl hx))
      · exact .inr (.inl (.inr hx))
      · exact .inl (b.condenses_flushDeferred.subperm.subset hx)
      · exact .inr (.inr hx)
  | fresh hr hc =>
      rw [standing_cons, Desk.registered_plain, Builder.components_blank hr hc]
        at hx
      rw [standing_cons]
      exact .stood (List.mem_append_right _ hx)

theorem turn_le (h : Tidy own brought ds n) (ht : Turn brought ds n m n') :
    n ≤ n' := by
  cases ht with
  | @work d d' ds _ _ _ hw =>
      obtain ⟨deal, he⟩ := hw.explains (h.sound d List.mem_cons_self).meets
      exact next_le he.new
  | push | pop | fresh => exact Nat.le_refl n

end Tidy

end

/-! ## Along a run -/

/-- Only what replies has an output. -/
def Apt (cs : List Component) : Prop :=
  ∀ x ∈ cs, x.output? ≠ none → x.replies = true

/-- The outputs that are set among the first are set among the second, and to
the same. -/
def Keeps (cs cs' : List Component) : Prop :=
  ∀ x ∈ cs, ∀ x' ∈ cs', x'.isWorker = true → x'.key = x.key →
    ∀ target, x.output? = some target → x'.output? = some target

theorem Apt.turn {cs cs' : List Component} {n : Nat} (h : Apt cs)
    (ho : ∀ x ∈ cs', x.isWorker = true → Origin cs n x) : Apt cs' := by
  intro x hx hne
  have hworker : x.isWorker = true := by
    cases x with
    | channel c => exact absurd rfl hne
    | endpoint e => rfl
    | source s => rfl
  cases ho x hx hworker with
  | stood hm => exact h x hm hne
  | made _ hnone => exact absurd hnone hne
  | bound _ hr => rwa [Component.replies_withOutput]

theorem Keeps.turn {cs ds ds' : List Component} {n : Nat} (h : Keeps cs ds)
    (hg : ∀ x ∈ cs, x.key.number < n)
    (ho : ∀ x ∈ ds', x.isWorker = true → Origin ds n x) : Keeps cs ds' := by
  intro x hx x' hx' hworker hk target htarget
  cases ho x' hx' hworker with
  | stood hm => exact h x hx x' hm hworker hk target htarget
  | made hnew =>
      have hlt := hg x hx
      rw [← hk, hnew] at hlt
      exact absurd hlt (Nat.lt_irrefl n)
  | @bound y _ hm _ hnone =>
      rw [Component.key_withOutput] at hk
      rw [Component.isWorker_withOutput] at hworker
      rw [h x hx y hm hworker hk target htarget] at hnone
      cases hnone

theorem Tidy.keeps_refl {own : Channel → Bool} {brought : Channel → Prop}
    {ds : List Desk} {n : Nat} (h : Tidy own brought ds n) :
    Keeps (standing ds) (standing ds) := by
  intro x hx x' hx' hworker hk target htarget
  have heq := h.clear.eq (standing_subset_stock ds hx')
    (standing_subset_stock ds hx) (Component.marked_of_isWorker hworker) hk
  rwa [heq]

/-- Along the moments so far and up to the desks as they stand, outputs were
set of what replies, and then kept. -/
structure Stable (past : List Moment) (ds : List Desk) (n : Nat) : Prop where
  given : ∀ m ∈ past, ∀ x ∈ standing m.desks, x.key.number < n
  last : ∃ m ∈ past, m.desks = ds
  apt : ∀ m ∈ past, Apt (standing m.desks)
  kept : past.Pairwise fun m m' => Keeps (standing m.desks) (standing m'.desks)
  now : ∀ m ∈ past, Keeps (standing m.desks) (standing ds)

namespace Stable

variable {brought : Channel → Prop} {past : List Moment} {ds : List Desk}
  {m : Moment} {n n' : Nat}

theorem apt_now (h : Stable past ds n) : Apt (standing ds) := by
  obtain ⟨m, hm, rfl⟩ := h.last
  exact h.apt m hm

theorem first {b : Builder} (hb : ∀ x ∈ b.components, x.output? = none)
    (htidy : Tidy (fun _ => false) brought [{ builder := b }] n) :
    Stable [.first b] [{ builder := b }] n where
  given := by
    rw [List.forall_mem_singleton]
    exact fun x hx => htidy.given x (standing_subset_stock _ hx)
  last := ⟨_, List.mem_singleton_self _, rfl⟩
  apt := by
    rw [List.forall_mem_singleton]
    intro x hx hne
    rw [Moment.first, standing, List.flatMap_singleton, Desk.registered_plain] at hx
    exact absurd (hb x hx) hne
  kept := List.pairwise_singleton _ _
  now := by
    rw [List.forall_mem_singleton]
    exact htidy.keeps_refl

theorem turn (h : Stable past ds n) (htidy : Tidy (fun _ => false) brought ds n)
    (ht : Turn brought ds n m n') :
    Stable (past ++ [m]) m.desks n' := by
  have horigin : ∀ x ∈ standing m.desks, x.isWorker = true →
      Origin (standing ds) n x :=
    fun x hx hworker => htidy.turn_origin ht hx hworker
  have htidy' := htidy.turn ht
  have hnow : ∀ p ∈ past, Keeps (standing p.desks) (standing m.desks) := fun p hp =>
    (h.now p hp).turn (h.given p hp) horigin
  have hle := htidy.turn_le ht
  refine ⟨?_, ⟨m, by simp, rfl⟩, ?_, ?_, ?_⟩
  · simp only [List.mem_append, List.mem_singleton, or_imp, forall_and, forall_eq]
    exact ⟨fun p hp x hx => Nat.lt_of_lt_of_le (h.given p hp x hx) hle,
      fun x hx => htidy'.given x (standing_subset_stock _ hx)⟩
  · simp only [List.mem_append, List.mem_singleton, or_imp, forall_and, forall_eq]
    exact ⟨h.apt, h.apt_now.turn horigin⟩
  · rw [List.pairwise_append]
    refine ⟨h.kept, List.pairwise_singleton _ _, fun p hp m' hm' => ?_⟩
    obtain rfl := List.mem_singleton.1 hm'
    exact hnow p hp
  · simp only [List.mem_append, List.mem_singleton, or_imp, forall_and, forall_eq]
    exact ⟨hnow, htidy'.keeps_refl⟩

/-- What holds of the desks goes for whatever stands on them. -/
theorem within (h : Stable past ds n) {earlier : List Moment} {cs : List Component}
    (hpast : earlier ⊆ past) (hs : cs ⊆ standing ds) :
    Apt cs ∧ ∀ m ∈ earlier, Keeps (standing m.desks) cs :=
  ⟨fun x hx => h.apt_now x (hs hx),
    fun m hm x hx x' hx' => h.now m (hpast hm) x hx x' (hs hx')⟩

end Stable

/-! ## Nothing is forgotten -/

/-- The output is that of the component, and the component needs it. -/
def PendingOutput.Heeds (output : PendingOutput) (x : Component) : Prop :=
  output.component = x.key ∧ output.requiresReply = true

/-- Once it is bound, what it heeds has an output. -/
theorem PendingOutput.owes_boundTo {output : PendingOutput} {x : Component}
    (h : x.owes = true → output.Heeds x) (target : Target) :
    (x.boundTo output.component target).owes = false := by
  cases howes : x.owes with
  | true =>
      rw [Component.boundTo, if_pos (h howes).1.symm]
      exact Component.owes_withOutput target x
  | false => exact Component.owes_boundTo howes

/-- What owes an output in a builder is what the pending one belongs to; in
what is held back nothing owes one. -/
structure Builder.Heeds (b : Builder) : Prop where
  pending : ∀ x ∈ b.registry.components, x.owes = true →
    ∃ output ∈ b.cursor.pending, output.Heeds x
  held : ∀ x ∈ b.cursor.deferred.flatMap Registry.components, x.owes = false

/-- What owes an output in a branch is what the branch ended on. -/
def Branch.Heeds (br : Branch) : Prop :=
  ∀ x ∈ br.registry.components, x.owes = true →
    ∃ output, br.ending = .pending output ∧ output.Heeds x

/-- The builder of a desk heeds, and so does each branch that lies on it. -/
structure Desk.Heeds (d : Desk) : Prop where
  builder : d.builder.Heeds
  branches : ∀ br ∈ d.branches, br.Heeds

theorem Branch.Heeds.of_settled {br : Branch} (h : br.Heeds) (hs : br.Settled) :
    ∀ x ∈ br.registry.components, x.owes = false := by
  intro x hx
  by_contra howes
  obtain ⟨output, he, -, hrequired⟩ := h x hx (Bool.of_not_eq_false howes)
  rcases hs with hs | ⟨output', hs, hnot⟩
  · rw [hs] at he
    cases he
  · rw [hs] at he
    cases he
    rw [hnot] at hrequired
    cases hrequired

namespace Builder.Heeds

variable {b : Builder}

theorem of_clean (h : ∀ x ∈ b.components, x.owes = false) : b.Heeds where
  pending x hx howes := by
    rw [h x (List.mem_append_left _ hx)] at howes
    cases howes
  held x hx := h x (List.mem_append_right _ hx)

/-- Where no output that is needed is pending, nothing owes one. -/
theorem clean (h : b.Heeds)
    (hp : ∀ output ∈ b.cursor.pending, output.requiresReply = false) :
    ∀ x ∈ b.components, x.owes = false := by
  intro x hx
  rcases List.mem_append.1 hx with hx | hx
  · by_contra howes
    obtain ⟨output, ho, -, hrequired⟩ := h.pending x hx (Bool.of_not_eq_false howes)
    rw [hp output ho] at hrequired
    cases hrequired
  · exact h.held x hx

/-- Once the pending output is bound, nothing in the registry owes one. -/
theorem bound (h : b.Heeds) (target : Target) :
    ∀ x ∈ b.registry.components, (b.bound target x).owes = false := by
  intro x hx
  have hpending := h.pending x hx
  unfold Builder.bound
  cases hp : b.cursor.pending with
  | none =>
      refine Bool.eq_false_iff.2 fun howes => ?_
      obtain ⟨output, ho, -⟩ := hpending howes
      rw [hp] at ho
      cases ho
  | some output =>
      refine PendingOutput.owes_boundTo (fun howes => ?_) target
      obtain ⟨output', ho, hheeds⟩ := hpending howes
      rw [hp] at ho
      cases ho
      exact hheeds

theorem appended (h : b.Heeds) (s : ChannelSource) : (b.appended s).Heeds := by
  have hclean : ∀ {target}, s.target? = some target → (b.appended s).Heeds := by
    intro target hs
    refine of_clean fun x hx => ?_
    have hbound : b.boundBy s = b.bound target := by
      rw [Builder.boundBy, hs]
    have hparts := (b.condenses_appended s).subperm.subset hx
    rw [hbound] at hparts
    rcases List.mem_append.1 hparts with hx | hx
    · obtain ⟨y, hy, rfl⟩ := List.mem_map.1 hx
      rcases List.mem_append.1 hy with hy | hy
      · exact h.bound target y hy
      · cases s with
        | channel c =>
            obtain rfl := List.mem_singleton.1 hy
            rw [b.bound_channel]
            rfl
        | named | fixedSubscriber => cases hy
    · exact h.held x hx
  cases s with
  | channel c => exact hclean rfl
  | named name => exact hclean rfl
  | fixedSubscriber id => exact ⟨h.pending, h.held⟩

theorem wired (h : b.Heeds) {input : ResolvedInput} {sides : List Registry}
    {e : Endpoint} (hs : ∀ x ∈ sides.flatMap Registry.components, x.owes = false) :
    (b.wired input sides e).Heeds := by
  have hcursor := b.cursor_wired input sides e
  have horigin : ∀ x ∈ (b.wired input sides e).components, x = .endpoint e ∨
      x.owes = false := by
    intro x hx
    have hparts := (b.condenses_wired input sides e).subperm.subset hx
    simp only [List.mem_append, List.mem_map, List.mem_singleton] at hparts
    rcases hparts with (⟨y, (hy | hy) | hy, rfl⟩ | rfl) | hx
    · exact .inr (h.bound _ y hy)
    · exact .inr (b.owes_bound (hs y hy))
    · obtain ⟨c, -, rfl⟩ := List.mem_map.1 hy
      rw [b.bound_channel]
      exact .inr rfl
    · exact .inl rfl
    · exact .inr (h.held x hx)
  refine ⟨fun x hx howes => ?_, fun x hx => ?_⟩
  · rcases horigin x (List.mem_append_left _ hx) with rfl | hclean
    · simp only [Component.owes, Component.replies, Component.requires,
        Bool.and_eq_true] at howes
      obtain ⟨⟨hreplies, hrequires⟩, -⟩ := howes
      rw [hcursor]
      exact ⟨_, by rw [if_pos hreplies]; rfl, rfl, hrequires⟩
    · rw [hclean] at howes
      cases howes
  · rw [hcursor] at hx
    cases hx

theorem absorb (h : b.Heeds) {branches : List Branch}
    (hs : ∀ br ∈ branches, ∀ x ∈ br.registry.components, x.owes = false) :
    (b.absorb branches).Heeds := by
  refine ⟨fun x hx howes => ?_, h.held⟩
  have hparts :=
    (Registry.condenses_foldl_extend (branches.map Branch.registry)
      b.registry).subperm.subset hx
  rw [List.flatMap_map, List.mem_append] at hparts
  rcases hparts with hx | hx
  · exact h.pending x hx howes
  · obtain ⟨br, hbr, hx⟩ := List.mem_flatMap.1 hx
    rw [hs br hbr x hx] at howes
    cases howes

theorem holding (h : b.Heeds) {branches : List Branch}
    (hs : ∀ br ∈ branches, ∀ x ∈ br.registry.components, x.owes = false) :
    (b.holding branches).Heeds := by
  refine ⟨h.pending, fun x hx => ?_⟩
  simp only [Builder.holding, List.flatMap_append, List.flatMap_map,
    List.mem_append] at hx
  rcases hx with hx | hx
  · exact h.held x hx
  · obtain ⟨br, hbr, hx⟩ := List.mem_flatMap.1 hx
    exact hs br hbr x hx

theorem posted (h : b.Heeds) {c : Channel} {reader : Option Endpoint}
    (hr : ∀ e ∈ reader, e.handler.requiresReply = false) :
    (b.posted c reader).Heeds := by
  refine ⟨fun x hx howes => ?_, h.held⟩
  have hchannel : ∀ x ∈ (b.registry.add (.channel c)).components, x.owes = true →
      x ∈ b.registry.components := by
    intro x hx howes
    rcases List.mem_append.1
      ((b.registry.condenses_add (.channel c)).subperm.subset hx) with hx | hx
    · exact hx
    · obtain rfl := List.mem_singleton.1 hx
      cases howes
  cases reader with
  | none => exact h.pending x (hchannel x hx howes) howes
  | some e =>
      rcases List.mem_append.1 ((Registry.condenses_add _ _).subperm.subset hx)
        with hx | hx
      · exact h.pending x (hchannel x hx howes) howes
      · obtain rfl := List.mem_singleton.1 hx
        rw [Component.owes_endpoint (hr e rfl)] at howes
        cases howes

theorem branch (b : Builder) (c : Channel) : (b.branch c).Heeds := by
  refine of_clean fun x hx => ?_
  obtain rfl := List.mem_singleton.1 hx
  rfl

theorem toBranch (h : b.Heeds) : b.toBranch.Heeds := by
  intro x hx howes
  rcases List.mem_append.1 (b.condenses_flushDeferred.subperm.subset hx)
    with hx | hx
  · obtain ⟨output, ho, hheeds⟩ := h.pending x hx howes
    refine ⟨output, ?_, hheeds⟩
    simp only [Builder.toBranch, Option.mem_def.1 ho]
  · rw [h.held x hx] at howes
    cases howes

end Builder.Heeds

theorem Tends.heeds {merge : Option Meeting} {br br' : Branch} {n n' : Nat}
    (h : Tends merge n br br' n') (hb : br.Heeds) : br'.Heeds := by
  have hnone : ∀ {x}, x ∈ br.registry.components → x.owes = true →
      ∀ c, br.ending = .channel c → False := by
    intro x hx howes c hc
    obtain ⟨output, he, -⟩ := hb x hx howes
    rw [hc] at he
    cases he
  cases h with
  | @link c e hend _ _ hbridge =>
      intro x hx howes
      rcases List.mem_append.1 ((Registry.condenses_add _ _).subperm.subset hx)
        with hx | hx
      · exact (hnone hx howes c hend).elim
      · obtain rfl := List.mem_singleton.1 hx
        rw [Component.owes_endpoint (Handler.replies_of_isBridge hbridge).2]
          at howes
        cases howes
  | @bind p m hend _ =>
      intro x hx howes
      rw [show
        (br.registry.bindOutput p.component (.channel m.channel)).components =
        br.registry.components.map
        (Component.boundTo p.component (.channel m.channel)) from
          Registry.components_bindOutput ..] at hx
      obtain ⟨y, hy, rfl⟩ := List.mem_map.1 hx
      have hclean : (y.boundTo p.component (.channel m.channel)).owes = false := by
        refine PendingOutput.owes_boundTo (fun howes => ?_) _
        obtain ⟨output, he, hheeds⟩ := hb y hy howes
        rw [hend] at he
        cases he
        exact hheeds
      rw [hclean] at howes
      cases howes
  | leave hend hno =>
      intro x hx howes
      have hclean := hb.of_settled (.inr ⟨_, hend, hno⟩) x hx
      rw [hclean] at howes
      cases howes
  | meet hend _ _ => exact fun x hx howes => (hnone hx howes _ hend).elim

section

variable {brought : Channel → Prop} {d d' : Desk} {ds : List Desk}
  {link : Option Link} {m : Moment} {n n' : Nat}

theorem Desk.heeds_plain {b : Builder} {channels : List Channel} (h : b.Heeds) :
    Heeds ⟨b, [], channels, none⟩ where
  builder := h
  branches _ hm := absurd hm List.not_mem_nil

theorem Work.heeds (h : Work brought d n link d' n') (hd : d.Heeds) : d'.Heeds := by
  have hclosed : ∀ {branches : List Branch}, (∀ br ∈ branches, br.Heeds) →
      (∀ br ∈ branches, br.Settled) →
      ∀ br ∈ branches, ∀ x ∈ br.registry.components, x.owes = false :=
    fun hheeds hs br hm => (hheeds br hm).of_settled (hs br hm)
  cases h with
  | idle hr hc =>
      refine ⟨⟨?_, ?_⟩, hd.branches⟩
      · rw [hr, hc]
        exact hd.builder.pending
      · rw [hc]
        exact hd.builder.held
  | take | shed | meetReady | meetBare | part => exact ⟨hd.builder, hd.branches⟩
  | append => exact ⟨hd.builder.appended _, hd.branches⟩
  | @attach e input sides kept rest _ _ hbr hs =>
      have hsides : ∀ br ∈ sides, br.Heeds :=
        fun br hm => hd.branches br (hbr ▸ List.mem_append_left _ hm)
      refine ⟨hd.builder.wired fun x hx => ?_,
        fun br hm => hd.branches br (hbr ▸ List.mem_append_right _ hm)⟩
      rw [List.flatMap_map] at hx
      obtain ⟨br, hm, hx⟩ := List.mem_flatMap.1 hx
      exact hclosed hsides hs br hm x hx
  | @tend done todo br br' _ _ hbr ht =>
      refine ⟨hd.builder, fun br₁ hm => ?_⟩
      rcases List.mem_append.1 hm with hm | hm
      · exact hd.branches br₁ (hbr ▸ List.mem_append_left _ hm)
      · rcases List.mem_cons.1 hm with rfl | hm
        · exact ht.heeds
            (hd.branches br (hbr ▸ List.mem_append_right _ List.mem_cons_self))
        · exact hd.branches br₁
            (hbr ▸ List.mem_append_right _ (List.mem_cons_of_mem _ hm))
  | stow hs _ hstow =>
      have hclean := hclosed hd.branches hs
      refine ⟨?_, fun _ hm => absurd hm List.not_mem_nil⟩
      cases hstow with
      | absorb => exact hd.builder.absorb hclean
      | hold => exact hd.builder.holding hclean
  | @merge m e _ _ hclose _ hp =>
      refine Desk.heeds_plain
        (Builder.Heeds.wired (.of_clean fun x hx => ?_) fun _ hx =>
          absurd hx List.not_mem_nil)
      have hparts :=
        (d.builder.condenses_mergedOn d.branches m.channel).subperm.subset hx
      simp only [List.mem_append, List.mem_singleton] at hparts
      rcases hparts with (hx | hx) | rfl
      · exact hd.builder.clean
          (by rw [hp]; exact fun _ ho => absurd ho (Option.not_mem_none _)) x hx
      · obtain ⟨br, hbr, hx⟩ := List.mem_flatMap.1 hx
        exact hclosed hd.branches (fun br hm => .inl (hclose br hm)) br hbr x hx
      · rfl
  | post _ _ hr =>
      exact ⟨hd.builder.posted fun e he => Handler.requiresReply_of_isScatterEnd
        (hr e he).2.1, hd.branches⟩

/-- No turn forgets an output that is needed. -/
theorem Turn.heeds (h : Turn brought ds n m n') (hd : ∀ d ∈ ds, d.Heeds) :
    ∀ d ∈ m.desks, d.Heeds := by
  cases h with
  | work hw =>
      rw [List.forall_mem_cons] at hd ⊢
      exact ⟨hw.heeds hd.1, hd.2⟩
  | @push d ds c =>
      simp only [List.forall_mem_cons] at hd ⊢
      exact ⟨Desk.heeds_plain (.branch d.builder c), ⟨hd.1.builder, hd.1.branches⟩,
        hd.2⟩
  | pop =>
      simp only [List.forall_mem_cons] at hd ⊢
      obtain ⟨hb, hparent, hrest⟩ := hd
      refine ⟨⟨hparent.builder, ?_⟩, hrest⟩
      simp only [List.mem_append, List.mem_singleton, or_imp, forall_and, forall_eq]
      exact ⟨hparent.branches, hb.builder.toBranch⟩
  | fresh hr hc =>
      rw [List.forall_mem_cons] at hd ⊢
      refine ⟨Desk.heeds_plain (.of_clean fun x hx => ?_), hd.2⟩
      rw [Builder.components_blank hr hc] at hx
      cases hx

end

theorem Builder.Started.unset {s : Start} {b : Builder} {n n' : Nat}
    (h : b.Started s n n') :
    ∀ x ∈ b.components, x.output? = none := by
  rcases h.components with hc | ⟨c, -, hc, -⟩ | ⟨src, hc, -, ho, -⟩ <;> rw [hc]
  · exact fun _ hx => absurd hx List.not_mem_nil
  · simp [Component.output?]
  · simpa [Component.output?] using ho

theorem Builder.Started.heeds {s : Start} {b : Builder} {n n' : Nat}
    (h : b.Started s n n') : b.Heeds := by
  cases h with
  | bare hr _ _ hd =>
      refine .of_clean fun x hx => ?_
      rw [Builder.components_eq, hr, hd] at hx
      cases hx
  | channel _ hr hc =>
      refine .of_clean fun x hx => ?_
      rw [Builder.components_eq, hr, hc] at hx
      obtain rfl := List.mem_singleton.1 hx
      rfl
  | source hr _ _ hc =>
      refine ⟨fun x hx _ => ?_,
        by rw [hc]; exact fun _ hx => absurd hx List.not_mem_nil⟩
      rw [hr] at hx
      obtain rfl := List.mem_singleton.1 hx
      rw [hc]
      exact ⟨_, rfl, rfl, rfl⟩

/-! ## Outputs of a flow -/

theorem Builder.pending_of_checkEnds {b : Builder} (h : b.checkEnds = .ok ()) :
    ∀ output ∈ b.cursor.pending, output.requiresReply = false := by
  intro output ho
  simp only [checkEnds, Option.mem_def.1 ho] at h
  split at h
  · cases h
  · split at h
    · cases h
    · split at h
      · cases h
      · next hr => exact Bool.eq_false_iff.2 hr

/-- A bridge that closes the flow needs no output. -/
theorem Builder.pending_of_yields_closeImplicit {b b' : Builder} {w w' : Workshop}
    (h : Yields b.closeImplicit w b' w')
    (hp : ∀ output ∈ b.cursor.pending, output.requiresReply = false) :
    ∀ output ∈ b'.cursor.pending, output.requiresReply = false := by
  rcases of_yields_closeImplicit h with ⟨rfl, -, -⟩ | ⟨c, -, -, hb⟩
  · exact hp
  · obtain ⟨input, _, -, hw⟩ := of_yields_attach (of_yields_bridge hb)
    obtain ⟨e, rfl, -, he, -⟩ := wired_of_yields hw
    rw [cursor_wired, he]
    rintro output ⟨⟩
    rfl

/-- Whatever a run goes through, outputs are stable and none is forgotten. -/
theorem Stable.along : Kept (fun _ => True) fun brought past ds n =>
    Tidy (fun _ => false) brought ds n ∧ Stable past ds n ∧ ∀ d ∈ ds, d.Heeds :=
  Tidy.kept_with nofun (fun _ _ => rfl)
    (fun _ h htidy => ⟨.first h.unset htidy, by
      rw [List.forall_mem_singleton]
      exact Desk.heeds_plain h.heeds⟩)
    (fun htidy h ht => ⟨h.1.turn htidy ht, ht.heeds h.2⟩)
    fun h hle =>
      ⟨{ h.1 with
          given := fun m hm x hx => Nat.lt_of_lt_of_le (h.1.given m hm x hx) hle },
        h.2⟩

variable {program : List Step} {b : Builder} {w w' : Workshop} {g : FlowGraph}
  {history : List Moment}

/-- At every moment of a run, in every builder and branch, only what replies
has an output, and no later turn at any level changes one that is set. The
same goes for the builders that a further call reaches, also if it fails. If
the flow can be finished, its graph keeps all outputs, and there every source
has one, and so does every endpoint that replies and requires one. -/
theorem outputs_bound (h : Underway (fun _ => True) program b w history) :
    (∀ m ∈ history, Apt (standing m.desks)) ∧
    history.Pairwise (fun m m' => Keeps (standing m.desks) (standing m'.desks)) ∧
    (∀ (s : Step) left (b' : Builder), (∀ c ∈ s.brought, b.Knows w c) →
      s.Reaches b w left b' → Apt b'.components ∧
      ∀ m ∈ history, Keeps (standing m.desks) b'.components) ∧
    ∀ g w', Yields b.finish w g w' →
      Apt g.components ∧ (∀ m ∈ history, Keeps (standing m.desks) g.components) ∧
      (∀ s ∈ g.sources, s.output ≠ none) ∧
      ∀ e ∈ g.endpoints, e.handler.producesReplies = true →
        e.handler.requiresReply = true → e.output ≠ none := by
  obtain ⟨-, hstable, -⟩ := h.kept Stable.along
  refine ⟨hstable.apt, hstable.kept, fun s left b' hb hr => ?_, fun g w' hy => ?_⟩
  · obtain ⟨rest, ds, n', -, hreached, -⟩ :=
      h.kept_reached Stable.along (fun c hc => ⟨trivial, hb c hc⟩) hr
    exact hreached.within (List.subset_append_left _ _)
      fun x hx => List.mem_append_left _ (List.mem_append_left _ hx)
  obtain ⟨last, hfinished, -⟩ := h.exists_finished hy
  obtain ⟨b₀, b', w₀, w₁, -, -, hends, hclose, hg, -, -, hall, hheeds⟩ :=
    hfinished.kept Stable.along
  have hsub : g.components ⊆ standing [{ builder := b' }] := by
    rw [hg, standing, List.flatMap_singleton, Desk.registered_plain]
    exact b'.condenses_flushDeferred.subperm.subset
  have hclean : ∀ x ∈ g.components, x.owes = false := by
    have hpending := Builder.pending_of_yields_closeImplicit hclose
      (Builder.pending_of_checkEnds hends)
    rw [hg]
    exact fun x hx => (hheeds _ (List.mem_singleton_self _)).builder.clean hpending
      x (b'.condenses_flushDeferred.subperm.subset hx)
  obtain ⟨hapt, hkeeps⟩ := hall.within (List.subset_append_left history last) hsub
  refine ⟨hapt, hkeeps, fun s hs hnone => ?_,
    fun e he hreplies hrequires hnone => ?_⟩
  · have howes := hclean _ (FlowGraph.mem_sources.1 hs)
    simp [Component.owes, Component.replies, Component.requires, Component.output?,
      hnone] at howes
  · have howes := hclean _ (FlowGraph.mem_endpoints.1 he)
    simp [Component.owes, Component.replies, Component.requires, Component.output?,
      hnone, hreplies, hrequires] at howes

/-- Two gateways that require replies in the main chain, one with a side flow,
and one in each branch of a router. -/
theorem outputs_bound_merged :
    let gateway : HandlerPlan := .custom "gateway" true true []
    let program : List Step :=
      [.endpoint { handler := gateway }
          [(.new .direct (some "side") [] [], [.handle gateway, .handle .bridge])],
        .route { strategy := .header "kind" } [("a", .flow [.handle gateway]),
          ("b", .flow [.handle gateway, .handle .bridge])],
        .handle gateway, .handle .bridge]
    ∃ b w g w' history, Underway (fun _ => True) program b w history ∧
      Yields b.finish w g w' ∧
      (g.components.filter Component.isWorker).map
          (fun c => (c.key.number, c.output?.isSome)) =
        [(1, true), (4, true), (6, false), (7, true), (16, false), (10, true),
          (11, true), (13, true), (17, true), (19, true), (21, false)] ∧
      Apt g.components ∧
      (∀ s ∈ g.sources, s.output ≠ none) ∧
      ∀ e ∈ g.endpoints, e.handler.producesReplies = true →
        e.handler.requiresReply = true → e.output ≠ none := by
  intro gateway program
  obtain ⟨g, w', hy, houtputs⟩ := exists_yields (m := do
      let b ←
        (Start.source
          { componentType := "ticker", id := none, mode := .messageDriven,
            lifecycle := {} }).make
      let b ← assembleSteps b program
      b.finish)
    (f := fun g => (g.components.filter Component.isWorker).map fun c =>
      (c.key.number, c.output?.isSome))
    (w := .start 1 1)
    (y := [(1, true), (4, true), (6, false), (7, true), (16, false), (10, true),
        (11, true), (13, true), (17, true), (19, true), (21, false)])
      (by decide +kernel)
  simp only [yields_bind] at hy
  obtain ⟨b, w₁, hmake, b', w₂, hsteps, hfinish⟩ := hy
  have hstart : Underway (fun _ => True) [] b w₁ [.first b] :=
    .start (by simp [Start.brought]) hmake
  obtain ⟨history, h, -⟩ := hstart.exists_steps (by decide) hsteps
  obtain ⟨hapt, -, hsources, hendpoints⟩ := (outputs_bound h).2.2.2 g w' hfinish
  exact ⟨b', w₂, g, w', history, h, hfinish, houtputs, hapt, hsources, hendpoints⟩

end FlowAssembly
