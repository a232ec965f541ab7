import FlowAssembly.Proofs.Deals
import FlowAssembly.Proofs.Histories

/-!
# Tidiness

A pile of desks is tidy when every worker stands in one place only, and so
does every channel of a given kind that the assembler makes (`own`); when a
pending output belongs to a component that stands where it is looked for, and
that has none yet; and when a current channel is registered. Every turn keeps
a pile tidy, whatever the caller brings. Under the account of a turn, then,
what is marked is neither lost nor doubled, and an output is set exactly where
it was waited for.
-/

namespace FlowAssembly

namespace Component

/-- Whether messages come out of it. -/
def replies : Component → Bool
  | .channel _ => false
  | .endpoint e => e.handler.producesReplies
  | .source _ => true

/-- Whether it may not be left without an output. -/
def requires : Component → Bool
  | .channel _ => false
  | .endpoint e => e.handler.requiresReply
  | .source _ => true

theorem isWorker_of_replies {x : Component} (h : x.replies = true) :
    x.isWorker = true := by
  cases x with
  | channel c => cases h
  | endpoint e => rfl
  | source s => rfl

@[simp]
theorem replies_withOutput (target : Target) (x : Component) :
    (x.withOutput target).replies = x.replies := by
  cases x <;> rfl

@[simp]
theorem input?_withOutput (target : Target) (x : Component) :
    (x.withOutput target).input? = x.input? := by
  cases x <;> rfl

end Component

/-- The pending output is that of a component which has none yet. -/
structure PendingOutput.Belongs (output : PendingOutput) (x : Component) :
    Prop where
  key : x.key = output.component
  replies : x.replies = true
  unset : x.output? = none

/-- The pending output is that of a component among these. -/
def PendingOutput.Awaited (output : PendingOutput) (cs : List Component) : Prop :=
  ∃ x ∈ cs, output.Belongs x

theorem PendingOutput.Awaited.mono {output : PendingOutput}
    {cs cs' : List Component} (h : output.Awaited cs) (hs : cs ⊆ cs') :
    output.Awaited cs' := by
  obtain ⟨x, hm, hb⟩ := h
  exact ⟨x, hs hm, hb⟩

/-- A current channel is registered, and a pending output belongs to a
component of the registry; while one is pending the flow stands on nothing
that it could be bound to. -/
structure Builder.Sound (b : Builder) : Prop where
  current : ∀ c, b.cursor.channel = some (.channel c) →
    c.key ∈ b.registry.components.map Component.key
  awaited : ∀ output ∈ b.cursor.pending, output.Awaited b.registry.components
  unbound : b.cursor.pending ≠ none → ∀ s ∈ b.cursor.channel, s.target? = none

/-- The branch ended on a channel of its own, or on a component of its own
that has no output yet. -/
structure Branch.Sound (br : Branch) : Prop where
  bare : ∀ c, br.ending = .channel c →
    c.key ∈ br.registry.components.map Component.key
  awaited : ∀ output, br.ending = .pending output →
    output.Awaited br.registry.components

theorem Branch.sound_closed (r : Registry) : Branch.Sound ⟨r, .closed⟩ where
  bare := nofun
  awaited := nofun

/-- The builder of a desk is sound, so is each branch that lies on it, and a
merge channel that is not new stands in one of them. -/
structure Desk.Sound (d : Desk) : Prop where
  builder : d.builder.Sound
  branches : ∀ br ∈ d.branches, br.Sound
  meets : d.Meets

theorem Desk.meets_of_none {d : Desk} (h : d.merge = none) : d.Meets := by
  intro m hm
  rw [h] at hm
  cases hm

/-- A desk without branches. -/
theorem Desk.sound_plain {b : Builder} {channels : List Channel} (h : b.Sound) :
    Sound ⟨b, [], channels, none⟩ where
  builder := h
  branches _ hm := absurd hm List.not_mem_nil
  meets := meets_of_none rfl

/-! ## Builders stay sound -/

namespace Builder.Sound

variable {b b' : Builder}

/-- A builder that stands as before and has lost nothing. -/
theorem mono (h : b.Sound) (hr : b.registry.components ⊆ b'.registry.components)
    (hc : b'.cursor.channel = b.cursor.channel)
    (hp : b'.cursor.pending = b.cursor.pending) : b'.Sound where
  current c hcur := List.map_subset _ hr (h.current c (hc ▸ hcur))
  awaited output ho := (h.awaited output (hp ▸ ho)).mono hr
  unbound hne s hs := h.unbound (hp ▸ hne) s (hc ▸ hs)

theorem appended (h : b.Sound) (s : ChannelSource) : (b.appended s).Sound := by
  match s with
  | .channel c =>
      have hp : (b.appended (.channel c)).cursor.pending = none :=
        b.pending_appended rfl
      have hr : (b.appended (.channel c)).registry.components =
          (b.registry.add (.channel c)).components.map (b.bound (.channel c)) :=
        components_bindPending { b with registry := b.registry.add (.channel c) }
          (.channel c)
      refine ⟨fun c' hc' => ?_, fun output ho => ?_, fun hne => absurd hp hne⟩
      · obtain rfl : c = c' := by simpa [Builder.appended, continueFrom] using hc'
        have hk :
            c.key ∈ (b.registry.add (.channel c)).components.map Component.key :=
          (b.registry.condenses_add (.channel c)).mem_keys_iff.2
            (by simp [Component.key])
        rw [hr, List.map_map]
        simpa [Function.comp_def] using hk
      · rw [hp] at ho
        cases ho
  | .named name =>
      have hp : (b.appended (.named name)).cursor.pending = none :=
        b.pending_appended rfl
      refine ⟨fun c hc => ?_, fun output ho => ?_, fun hne => absurd hp hne⟩
      · simp [Builder.appended, continueFrom] at hc
      · rw [hp] at ho
        cases ho
  | .fixedSubscriber id =>
      refine ⟨fun c hc => ?_, h.awaited, fun _ s hs => ?_⟩
      · simp [Builder.appended, continueFrom] at hc
      · obtain rfl : .fixedSubscriber id = s := by
          simpa [Builder.appended, continueFrom] using hs
        rfl

theorem absorb (h : b.Sound) (branches : List Branch) : (b.absorb branches).Sound :=
  h.mono (Registry.subset_foldl_extend _ _) rfl rfl

theorem holding (h : b.Sound) (branches : List Branch) :
    (b.holding branches).Sound :=
  h.mono (List.Subset.refl _) rfl rfl

theorem posted (h : b.Sound) (c : Channel) (reader : Option Endpoint) :
    (b.posted c reader).Sound := by
  refine h.mono ?_ rfl rfl
  cases reader with
  | none => exact Registry.subset_add _ _
  | some e =>
      exact List.Subset.trans (Registry.subset_add _ _) (Registry.subset_add _ _)

end Builder.Sound

namespace Builder

/-- What is behind an endpoint that was attached depends on the endpoint
alone. -/
theorem sound_wired {b : Builder} {input : ResolvedInput} {sides : List Registry}
    {e : Endpoint}
    (hfresh : ∀ x ∈ b.registry.components ++ sides.flatMap Registry.components ++
      madeChannels input, x.key ≠ e.key)
    (hout : e.output = none) : (b.wired input sides e).Sound := by
  refine ⟨?_, ?_, ?_⟩
  · rw [cursor_wired]
    exact nofun
  · rw [cursor_wired]
    dsimp only
    split
    · next hp =>
        rintro output ⟨⟩
        exact ⟨_, mem_wired hfresh, rfl, hp, hout⟩
    · exact nofun
  · rw [cursor_wired]
    exact fun _ => nofun

theorem sound_branch (b : Builder) (c : Channel) : (b.branch c).Sound where
  current c' hc' := by
    obtain rfl : c = c' := by simpa [branch] using hc'
    exact List.mem_map_of_mem (Registry.mem_add (by simp))
  awaited := nofun
  unbound hne := absurd rfl hne

theorem sound_blank {b : Builder} (hc : b.cursor = {}) : b.Sound := by
  refine ⟨?_, ?_, ?_⟩ <;> rw [hc]
  · exact nofun
  · exact nofun
  · exact fun _ => nofun

theorem Sound.toBranch {b : Builder} (h : b.Sound) : b.toBranch.Sound := by
  have hr : b.toBranch.registry = b.flushDeferred.registry := rfl
  refine ⟨fun c hc => ?_, fun output ho => ?_⟩
  · rw [hr]
    refine List.map_subset _ b.subset_flushDeferred (h.current c ?_)
    simp only [Builder.toBranch] at hc
    split at hc
    · cases hc
    · next hcur =>
        cases hc
        exact hcur
    · cases hc
  · rw [hr]
    refine (h.awaited output ?_).mono b.subset_flushDeferred
    simp only [Builder.toBranch] at ho
    split at ho
    · next hp =>
        cases ho
        exact hp
    · cases ho
    · cases ho

end Builder

theorem Builder.Started.sound {s : Start} {b : Builder} {n n' : Nat}
    (h : b.Started s n n') : b.Sound := by
  cases h with
  | bare _ _ hp _ hc =>
      exact ⟨fun c h => absurd h (hc c), by rw [hp]; exact nofun,
        fun hne => absurd hp hne⟩
  | @channel c _ hr hc =>
      refine ⟨fun c' hc' => ?_, by rw [hc]; exact nofun,
        by rw [hc]; exact fun hne => absurd rfl hne⟩
      obtain rfl : c = c' := by simpa [hc] using hc'
      rw [hr]
      exact List.mem_map_of_mem (Registry.mem_add (by simp))
  | @source src hr _ hout hc =>
      refine ⟨by rw [hc]; exact nofun, fun output ho => ?_,
        by rw [hc]; exact fun _ => nofun⟩
      rw [hc] at ho
      cases ho
      rw [hr]
      exact ⟨.source src, Registry.mem_add (by simp), rfl, rfl, hout⟩

/-! ## Piles of desks -/

/-- What is registered on a pile of desks. -/
def standing (ds : List Desk) : List Component :=
  ds.flatMap Desk.registered

/-- All that stands or lies ready on a pile of desks. -/
def stock (ds : List Desk) : List Component :=
  ds.flatMap Desk.components

theorem stock_cons (d : Desk) (ds : List Desk) :
    stock (d :: ds) = d.components ++ stock ds :=
  List.flatMap_cons

theorem standing_cons (d : Desk) (ds : List Desk) :
    standing (d :: ds) = d.registered ++ standing ds :=
  List.flatMap_cons

theorem standing_subset_stock (ds : List Desk) : standing ds ⊆ stock ds := by
  intro x hx
  obtain ⟨d, hd, hx⟩ := List.mem_flatMap.1 hx
  exact List.mem_flatMap.2 ⟨d, hd, List.mem_append_left _ hx⟩

theorem Desk.registered_plain (b : Builder) :
    ({ builder := b } : Desk).registered = b.components := by
  simp [registered, branched]

/-- What is marked stands in one place only, every key was given out, and what
the caller brings is not marked. -/
structure Tidy (own : Channel → Bool) (brought : Channel → Prop) (ds : List Desk)
    (n : Nat) : Prop where
  /-- Only channels that the assembler made are marked. -/
  made : ∀ c, own c = true → c.isMade = true
  clear : Clear own (stock ds)
  given : ∀ x ∈ stock ds, x.key.number < n
  brought : ∀ c, brought c → own c = false ∧ c.key.number < n ∧
    ∀ x ∈ stock ds, x.key = c.key → x.marked own = false
  sound : ∀ d ∈ ds, d.Sound

namespace Tidy

variable {own : Channel → Bool} {brought : Channel → Prop} {d d' : Desk}
  {ds ds' : List Desk} {new : Option Component} {n n' : Nat}

/-- A channel that there can be copies of is not marked, and shares its key
with nothing that is. -/
theorem unmarked_of_lends (h : Tidy own brought ds n) (hd : d ∈ ds) {c : Channel}
    (hc : d.Lends brought c) :
    own c = false ∧ c.key.number < n ∧ ∀ x ∈ stock ds, x.key = c.key →
      x.marked own = false := by
  rcases hc with hc | ⟨hmade, hm⟩
  · exact h.brought c hc
  · have hown : own c = false := Bool.eq_false_iff.2 fun ht => by
      rw [h.made c ht] at hmade
      cases hmade
    have hstock : .channel c ∈ stock ds := List.mem_flatMap.2 ⟨d, hd, hm⟩
    refine ⟨hown, h.given _ hstock, fun x hx hk => Bool.eq_false_iff.2 fun ht => ?_⟩
    obtain rfl := h.clear.eq hx hstock ht hk
    have hmark : (Component.channel c).marked own = false := hown
    rw [hmark] at ht
    cases ht

theorem next_le (hn : Newcomer brought d n new n') : n ≤ n' := by
  cases hn with
  | none hle => exact hle
  | made => exact Nat.le_succ n
  | copy => exact Nat.le_refl n

/-- What comes to a tidy pile shares its key with nothing that is marked. -/
theorem clear_new (h : Tidy own brought ds n) (hd : d ∈ ds)
    (hn : Newcomer brought d n new n') :
    Clear own (stock ds ++ new.toList) := by
  rw [Clear.append_iff]
  refine ⟨h.clear, ?_, ?_⟩
  · cases new with
    | none => exact List.Pairwise.nil
    | some x => exact List.pairwise_singleton _ _
  · cases hn with
    | none => simp
    | made hk =>
        rintro x hx y hy -
        obtain rfl := by simpa using hy
        have hlt := h.given x hx
        rintro heq
        rw [heq, hk] at hlt
        exact absurd hlt (Nat.lt_irrefl n)
    | copy hc =>
        rintro x hx y hy hmark heq
        obtain rfl := by simpa using hy
        obtain ⟨hown, -, hall⟩ := h.unmarked_of_lends hd hc
        rcases hmark with hmark | hmark
        · rw [hall x hx heq] at hmark
          cases hmark
        · rw [show (Component.channel _).marked own = false from hown] at hmark
          cases hmark

theorem given_new (h : Tidy own brought ds n) (hd : d ∈ ds)
    (hn : Newcomer brought d n new n') :
    ∀ x ∈ stock ds ++ new.toList, x.key.number < n' := by
  have hle := next_le hn
  simp only [List.mem_append, or_imp, forall_and]
  refine ⟨fun x hx => Nat.lt_of_lt_of_le (h.given x hx) hle, ?_⟩
  cases hn with
  | none => simp
  | made hk => simp [hk]
  | copy hc =>
      intro x hx
      obtain rfl := by simpa using hx
      exact (h.unmarked_of_lends hd hc).2.1

/-- A pile whose stock comes of that of a tidy pile, and of what is new, is
tidy. Outputs make no difference. -/
theorem of_stock (h : Tidy own brought ds n) (hd : d ∈ ds)
    (hn : Newcomer brought d n new n')
    (hs : ((stock ds').map (Component.stamp own)).Subperm
      ((stock ds ++ new.toList).map (Component.stamp own)))
    (hsound : ∀ d ∈ ds', d.Sound) : Tidy own brought ds' n' where
  made := h.made
  clear := (h.clear_new hd hn).of_subperm hs
  given x hx := by
    obtain ⟨y, hy, hst⟩ := List.mem_map.1 (hs.subset (List.mem_map_of_mem hx))
    have hk : y.key = x.key := congrArg Prod.fst hst
    exact hk ▸ h.given_new hd hn y hy
  brought c hc := by
    obtain ⟨hown, hlt, hall⟩ := h.brought c hc
    refine ⟨hown, Nat.lt_of_lt_of_le hlt (next_le hn), fun x hx hk => ?_⟩
    obtain ⟨y, hy, hst⟩ := List.mem_map.1 (hs.subset (List.mem_map_of_mem hx))
    have hkey : y.key = x.key := congrArg Prod.fst hst
    have hmark : y.marked own = x.marked own := congrArg Prod.snd hst
    rw [← hmark]
    rcases List.mem_append.1 hy with hy | hy
    · exact hall y hy (hkey.trans hk)
    · cases hn with
      | none => cases hy
      | made hk' =>
          obtain rfl := by simpa using hy
          rw [← hk, ← hkey, hk'] at hlt
          exact absurd hlt (Nat.lt_irrefl n)
      | copy hc' =>
          obtain rfl := by simpa using hy
          exact (h.unmarked_of_lends hd hc').1
  sound := hsound

end Tidy

/-! ## Turns at one desk -/

section

variable {own : Channel → Bool} {brought : Channel → Prop} {d d' : Desk}
  {ds : List Desk} {deal : Deal} {link : Option Link} {n n' : Nat}

/-- What the account says to be on the desk is what was there and what is
new. -/
theorem Deal.Explains.stamps (he : deal.Explains brought d n d' n') :
    ((deal.part.map (Component.settled deal.bound) ++ deal.rest ++ deal.used ++
        d'.loose).map (Component.stamp own)).Subperm
      ((d.components ++ deal.new.toList).map (Component.stamp own)) := by
  have hpart :
      (deal.part.map (Component.settled deal.bound)).map (Component.stamp own) =
      deal.part.map (Component.stamp own) := by
    simp [Function.comp_def]
  have hloose := subperm_map he.loose (Component.stamp own)
  have hsplit := he.split.map (Component.stamp own)
  simp only [Desk.components, List.map_append, hpart, List.append_assoc]
    at hloose hsplit ⊢
  rw [← List.append_assoc]
  exact hsplit.symm.subperm.append hloose

theorem Deal.Explains.components_stamps (he : deal.Explains brought d n d' n') :
    (d'.components.map (Component.stamp own)).Subperm
      ((d.components ++ deal.new.toList).map (Component.stamp own)) :=
  (subperm_map (he.registered.subperm.append (List.Subperm.refl d'.loose)) _).trans
    he.stamps

namespace Tidy

/-- An output is set where it was waited for. -/
theorem awaited (h : Tidy own brought (d :: ds) n)
    (he : deal.Explains brought d n d' n') {binding : PendingOutput × Target}
    (hb : binding ∈ deal.bound) : binding.1.Awaited deal.part := by
  have hd := h.sound d List.mem_cons_self
  rcases he.bound binding hb with ⟨hp, hsub⟩ | ⟨br, hbr, hp, hsub⟩
  · exact (hd.builder.awaited _ hp).mono hsub
  · exact ((hd.branches br hbr).awaited _ hp).mono hsub

theorem clear_registered (h : Tidy own brought (d :: ds) n) :
    Clear own d.registered := by
  have hc := h.clear
  rw [stock_cons, Desk.components, List.append_assoc] at hc
  exact (Clear.append_iff.1 hc).1

theorem settled_rest (h : Tidy own brought (d :: ds) n)
    (he : deal.Explains brought d n d' n') {y : Component} (hy : y ∈ deal.rest) :
    y.settled deal.bound = y := by
  cases hb : deal.bound with
  | none => rfl
  | some binding =>
      obtain ⟨x, hx, hbelongs⟩ := h.awaited he (Option.mem_def.2 hb)
      have hc := h.clear_registered.of_subperm (he.split.symm.map _).subperm
      refine Component.boundTo_of_ne (fun hk => ?_) _
      have hmark : x.marked own = true := Component.marked_of_isWorker
        (Component.isWorker_of_replies hbelongs.replies)
      exact (Clear.append_iff.1 hc).2.2 x hx y hy (.inl hmark)
        (hbelongs.key.trans hk.symm)

/-- What is registered on a desk and marked is what was registered there, with
the output set that the account says, and what lay ready. -/
theorem mem_registered (h : Tidy own brought (d :: ds) n)
    (he : deal.Explains brought d n d' n') {x : Component}
    (hx : x.marked own = true) :
    x ∈ d'.registered ↔ (∃ y ∈ d.registered, y.settled deal.bound = x) ∨
      x ∈ deal.used := by
  have hclear :
      Clear own (deal.part.map (Component.settled deal.bound) ++ deal.rest ++
        deal.used) := by
    refine (h.clear_new List.mem_cons_self he.new).of_subperm ?_
    refine (subperm_map (List.sublist_append_left _ d'.loose).subperm _).trans
      (he.stamps.trans ?_)
    rw [stock_cons, List.append_assoc]
    exact subperm_map
      ((List.Subperm.refl _).append (List.sublist_append_right _ _).subperm) _
  have hrest : ∀ y ∈ deal.rest, y.settled deal.bound = y :=
    fun y hy => h.settled_rest he hy
  rw [he.registered.mem_iff hclear hx, List.mem_append, List.mem_append,
    List.mem_map]
  refine or_congr_left ?_
  simp only [he.split.mem_iff, List.mem_append, or_and_right, exists_or]
  refine or_congr_right ⟨fun hm => ⟨x, hm, hrest x hm⟩, ?_⟩
  rintro ⟨y, hy, rfl⟩
  rwa [hrest y hy]

/-- Placing the flows that were held back loses nothing that is marked. -/
theorem mem_flushed {b : Builder} (h : Tidy own brought ({ builder := b } :: ds) n)
    {x : Component} (hx : x.marked own = true) :
    x ∈ b.flushDeferred.registry.components ↔ x ∈ b.components := by
  have hc := h.clear_registered
  rw [Desk.registered_plain] at hc
  exact b.condenses_flushDeferred.mem_iff hc hx

/-- The next endpoint has a key that nothing shares. -/
theorem ne_fresh (h : Tidy own brought ds n) {e : Endpoint} (he : e.Fresh n) :
    ∀ x ∈ stock ds, x.key ≠ e.key := by
  intro x hx hk
  have hlt := h.given x hx
  rw [hk, he.key] at hlt
  exact Nat.lt_irrefl n hlt

end Tidy

theorem Reads.mem_of_made {handler : Handler} {current : Option ChannelSource}
    {channels rest : List Channel} {input : ResolvedInput}
    (h : Reads handler current channels input rest) {c : Channel}
    (hc : input.made = some c) :
    c ∈ channels := by
  cases h with
  | channel | named => cases hc
  | marker _ hp | none hp =>
      cases hc
      exact hp.symm.subset List.mem_cons_self

theorem Handler.replies_of_isBridge {h : Handler} (hb : h.behaviour = .bridge) :
    h.producesReplies = true ∧ h.requiresReply = false := by
  simp [producesReplies, requiresReply, hb, Behaviour.producesReplies,
    Behaviour.requiresReply]

theorem Tends.sound {merge : Option Meeting} {br br' : Branch}
    (h : Tends merge n br br' n')
    (hg : ∀ x ∈ br.registry.components, x.key.number < n) : br'.Sound := by
  cases h with
  | @link c e hend hne he hb =>
      have hreplies := (Handler.replies_of_isBridge hb).1
      refine ⟨nofun, ?_⟩
      rintro output ⟨⟩
      refine ⟨.endpoint e, Registry.mem_add fun x hx hk => ?_, rfl,
        hreplies, he.output⟩
      have hlt := hg x hx
      rw [hk, show (Component.endpoint e).key = _ from he.key] at hlt
      exact Nat.lt_irrefl n hlt
  | bind | leave | meet => exact Branch.sound_closed _

theorem Tends.keys_subset {merge : Option Meeting} {br br' : Branch}
    (h : Tends merge n br br' n') :
    br.registry.components.map Component.key ⊆ br'.registry.components.map
      Component.key := by
  cases h with
  | link => exact List.map_subset _ (Registry.subset_add _ _)
  | @bind p m =>
      have hr :
          (br.registry.bindOutput p.component (.channel m.channel)).components =
          br.registry.components.map (Component.boundTo p.component
            (.channel m.channel)) :=
        Registry.components_bindOutput ..
      rw [hr, List.map_map]
      simp [Function.comp_def]
  | leave | meet => exact List.Subset.refl _

namespace Tidy

theorem builder_subset_stock (d : Desk) (ds : List Desk) :
    d.builder.components ⊆ stock (d :: ds) := by
  rw [stock_cons, Desk.components, Desk.registered, List.append_assoc,
    List.append_assoc]
  exact List.subset_append_left _ _

theorem branch_subset_stock {br : Branch} (hbr : br ∈ d.branches) (ds : List Desk) :
    br.registry.components ⊆ stock (d :: ds) := by
  intro x hx
  rw [stock_cons]
  exact List.mem_append_left _
    (List.mem_append_left _
      (List.mem_append_right _ (List.mem_flatMap.2 ⟨br, hbr, hx⟩)))

theorem channel_mem_stock {c : Channel} (hc : c ∈ d.channels) (ds : List Desk) :
    .channel c ∈ stock (d :: ds) := by
  rw [stock_cons]
  exact List.mem_append_left _
    (List.mem_append_right _ (List.mem_append_left _ (List.mem_map_of_mem hc)))

theorem given_meeting (h : Tidy own brought (d :: ds) n) {m : Meeting}
    (hm : d.merge = some m) :
    m.channel.key.number < n := by
  cases hnew : m.isNew with
  | true =>
      refine h.given (.channel m.channel) ?_
      rw [stock_cons]
      refine List.mem_append_left _
        (List.mem_append_right _ (List.mem_append_right _ ?_))
      simp [hm, Meeting.components, hnew]
  | false =>
      obtain ⟨x, hx, hk⟩ :=
        List.mem_map.1 ((h.sound d List.mem_cons_self).meets m hm hnew)
      obtain ⟨br, hbr, hx⟩ := List.mem_flatMap.1 hx
      exact hk ▸ h.given x (branch_subset_stock hbr ds hx)

theorem given_merged (h : Tidy own brought (d :: ds) n) {m : Meeting}
    (hm : d.merge = some m) {x : Component}
    (hx : x ∈ (d.builder.mergedOn d.branches m.channel).components) :
    x.key.number < n := by
  have hparts :=
    (d.builder.condenses_mergedOn d.branches m.channel).subperm.subset hx
  rcases List.mem_append.1 hparts with hx | hx
  · rcases List.mem_append.1 hx with hx | hx
    · exact h.given x (builder_subset_stock d ds hx)
    · obtain ⟨br, hbr, hx⟩ := List.mem_flatMap.1 hx
      exact h.given x (branch_subset_stock hbr ds hx)
  · obtain rfl := List.mem_singleton.1 hx
    exact h.given_meeting hm

theorem work_sound (h : Tidy own brought (d :: ds) n)
    (hw : Work brought d n link d' n') : d'.Sound := by
  have hd := h.sound d List.mem_cons_self
  have hbuilder := builder_subset_stock d ds
  have hregistry : d.builder.registry.components ⊆ stock (d :: ds) :=
    List.Subset.trans (List.subset_append_left _ _) hbuilder
  cases hw with
  | @idle b _ _ hr hc =>
      exact ⟨hd.builder.mono (hr ▸ List.Subset.refl _) (by rw [hc]) (by rw [hc]),
        hd.branches, hd.meets⟩
  | take => exact ⟨hd.builder, hd.branches, hd.meets⟩
  | shed => exact ⟨hd.builder, hd.branches, hd.meets⟩
  | append => exact ⟨hd.builder.appended _, hd.branches, hd.meets⟩
  | @attach e input sides kept rest _ _ hbr _ hmerge hr _ he =>
      refine ⟨Builder.sound_wired ?_ he.output, fun br hm => hd.branches br ?_, ?_⟩
      · intro x hx
        refine h.ne_fresh he x ?_
        rw [List.flatMap_map, List.mem_append, List.mem_append] at hx
        rcases hx with (hx | hx) | hx
        · exact hregistry hx
        · obtain ⟨br, hm, hx⟩ := List.mem_flatMap.1 hx
          exact branch_subset_stock (hbr ▸ List.mem_append_left _ hm) ds hx
        · obtain ⟨c, hc, rfl⟩ := List.mem_map.1 hx
          exact channel_mem_stock (hr.mem_of_made (Option.mem_toList.1 hc)) ds
      · rw [hbr]
        exact List.mem_append_right _ hm
      · intro m hm hnew
        have hkey := hd.meets m hm hnew
        obtain ⟨rfl, -⟩ := hmerge (by rw [hm]; simp)
        rwa [Desk.branched, hbr] at hkey
  | @tend done todo br br' _ _ hbr ht =>
      have hin : br ∈ d.branches := hbr ▸ List.mem_append_right _ List.mem_cons_self
      have hsound := ht.sound fun x hx => h.given x (branch_subset_stock hin ds hx)
      refine ⟨hd.builder, ?_, fun m hm hnew => ?_⟩
      · intro br₁ hm
        rcases List.mem_append.1 hm with hm | hm
        · exact hd.branches br₁ (hbr ▸ List.mem_append_left _ hm)
        · rcases List.mem_cons.1 hm with rfl | hm
          · exact hsound
          · exact hd.branches br₁
              (hbr ▸ List.mem_append_right _ (List.mem_cons_of_mem _ hm))
      · have hkey := hd.meets m hm hnew
        simp only [Desk.branched, hbr, List.flatMap_append, List.flatMap_cons,
          List.map_append, List.mem_append] at hkey ⊢
        exact hkey.imp_right (Or.imp_left (ht.keys_subset ·))
  | meetReady =>
      refine ⟨hd.builder, hd.branches, fun m hm hnew => ?_⟩
      obtain rfl := Option.some.inj hm
      cases hnew
  | @meetBare m br _ _ _ hbr hend =>
      refine ⟨hd.builder, hd.branches, fun m' hm' _ => ?_⟩
      obtain rfl := Option.some.inj hm'
      obtain ⟨x, hx, hk⟩ := List.mem_map.1 ((hd.branches br hbr).bare m hend)
      exact List.mem_map.2 ⟨x, List.mem_flatMap.2 ⟨br, hbr, hx⟩, hk⟩
  | part => exact ⟨hd.builder, hd.branches, Desk.meets_of_none rfl⟩
  | stow _ hnone hs =>
      refine ⟨?_, fun _ hm => absurd hm List.not_mem_nil, Desk.meets_of_none hnone⟩
      cases hs with
      | absorb => exact hd.builder.absorb _
      | hold => exact hd.builder.holding _
  | @merge m e _ hm _ _ hp _ _ he =>
      refine Desk.sound_plain (Builder.sound_wired (fun x hx hk => ?_) he.output)
      simp only [List.flatMap_nil, Builder.madeChannels, Option.toList_none,
        List.map_nil, List.append_nil] at hx
      have hlt := h.given_merged hm (List.mem_append_left _ hx)
      rw [hk, he.key] at hlt
      exact Nat.lt_irrefl n hlt
  | post => exact ⟨hd.builder.posted _ _, hd.branches, hd.meets⟩

theorem work (h : Tidy own brought (d :: ds) n) (hw : Work brought d n link d' n') :
    Tidy own brought (d' :: ds) n' := by
  obtain ⟨deal, he⟩ := hw.explains (h.sound d List.mem_cons_self).meets
  refine h.of_stock List.mem_cons_self he.new ?_ ?_
  · simp only [stock_cons, List.map_append]
    refine (he.components_stamps.append (List.Subperm.refl _)).trans
      (List.Perm.subperm ?_)
    rw [List.map_append, ← Multiset.coe_eq_coe]
    simp only [← Multiset.coe_add]
    abel
  · simp only [List.forall_mem_cons]
    exact ⟨h.work_sound hw, fun d hd => h.sound d (List.mem_cons_of_mem _ hd)⟩

end Tidy

end

/-! ## Turns at a pile -/

namespace Tidy

variable {own : Channel → Bool} {brought : Channel → Prop} {ds : List Desk}
  {m : Moment} {n n' : Nat}

theorem components_plain (b : Builder) :
    ({ builder := b } : Desk).components = b.components := by
  simp [Desk.components, Desk.registered, Desk.branched, Desk.loose]

/-- What stands in the builder on top of a pile is on the pile. -/
theorem subset_stock (b : Builder) (ds : List Desk) :
    b.components ⊆ stock ({ builder := b } :: ds) := by
  rw [stock_cons, components_plain]
  exact List.subset_append_left _ _

theorem given_builder {b : Builder}
    (h : Tidy own brought ({ builder := b } :: ds) n) :
    ∀ x ∈ b.components, x.key.number < n :=
  fun x hx => h.given x (subset_stock b ds hx)

theorem components_branch (b : Builder) (c : Channel) :
    (b.branch c).components = [.channel c] :=
  rfl

/-- Every turn keeps a pile tidy. -/
theorem turn (h : Tidy own brought ds n) (ht : Turn brought ds n m n') :
    Tidy own brought m.desks n' := by
  cases ht with
  | work hw => exact h.work hw
  | @push d ds c rest _ ho =>
      have hsound :
          ∀ d' ∈ { builder := d.builder.branch c } :: { d with
              channels := rest } :: ds, d'.Sound := by
        simp only [List.forall_mem_cons]
        have hd := h.sound d List.mem_cons_self
        exact ⟨Desk.sound_plain (d.builder.sound_branch c),
          ⟨hd.builder, hd.branches, hd.meets⟩,
          fun d hd => h.sound d (List.mem_cons_of_mem _ hd)⟩
      have hstock : ∀ rest,
          stock ({ builder := d.builder.branch c } :: { d with channels := rest } ::
            ds) = [.channel c] ++
            (d.registered ++
              (rest.map Component.channel ++
                d.merge.toList.flatMap Meeting.components)) ++ stock ds := by
        intro rest
        rw [stock_cons, stock_cons, components_plain, components_branch,
          ← List.append_assoc]
        rfl
      cases ho with
      | ready hp =>
          refine h.of_stock List.mem_cons_self
            (Newcomer.none (Nat.le_refl _)) ?_ hsound
          refine (List.Perm.map _ ?_).subperm
          have hchannels :
              (d.channels.map Component.channel).Perm ([.channel c] ++
                rest.map Component.channel) :=
            hp.map _
          rw [hstock, stock_cons, Option.toList_none, List.append_nil]
          refine List.Perm.append_right _ ?_
          refine List.Perm.trans ?_ ((hchannels.symm.append_right _).append_left _)
          rw [← Multiset.coe_eq_coe]
          simp only [← Multiset.coe_add]
          abel
      | copy hc =>
          refine h.of_stock List.mem_cons_self (Newcomer.copy hc) ?_ hsound
          refine (List.Perm.map _ ?_).subperm
          rw [hstock, stock_cons, Option.toList_some]
          show ([Component.channel c] ++ d.components ++ stock ds).Perm _
          rw [List.append_assoc]
          exact List.perm_append_comm
  | @pop b d ds _ =>
      refine h.of_stock List.mem_cons_self (Newcomer.none (Nat.le_refl _)) ?_ ?_
      · rw [Option.toList_none, List.append_nil]
        refine subperm_map ?_ _
        have hpopped :
            ({ d with branches := d.branches ++ [b.toBranch] } : Desk).components =
            d.registered ++ b.flushDeferred.registry.components ++ d.loose := by
          simp [Desk.components, Desk.registered, Desk.branched,
            Builder.toBranch, Desk.loose]
        rw [stock_cons, stock_cons, stock_cons, components_plain, hpopped,
          ← List.append_assoc]
        refine List.Subperm.append ?_ (List.Subperm.refl _)
        refine (List.perm_append_comm.append_right _).subperm.trans ?_
        rw [List.append_assoc]
        exact b.condenses_flushDeferred.subperm.append (List.Subperm.refl _)
      · simp only [List.forall_mem_cons]
        have hb := h.sound _ List.mem_cons_self
        have hd := h.sound d (List.mem_cons_of_mem _ List.mem_cons_self)
        refine ⟨⟨hd.builder, ?_, fun m hm hnew => ?_⟩,
          fun d hd =>
            h.sound d (List.mem_cons_of_mem _ (List.mem_cons_of_mem _ hd))⟩
        · simp only [List.mem_append, List.mem_singleton, or_imp,
            forall_and, forall_eq]
          exact ⟨hd.branches, hb.builder.toBranch⟩
        · rw [Desk.branched, List.flatMap_append, List.map_append]
          exact List.mem_append_left _ (hd.meets m hm hnew)
  | @fresh b b' d ds _ hr hc =>
      refine h.of_stock List.mem_cons_self (Newcomer.none (Nat.le_refl _)) ?_ ?_
      · rw [Option.toList_none, List.append_nil]
        refine subperm_map ?_ _
        rw [stock_cons, stock_cons, components_plain,
          Builder.components_blank hr hc]
        exact (List.sublist_append_right _ _).subperm
      · rw [List.forall_mem_cons]
        exact ⟨Desk.sound_plain (Builder.sound_blank hc),
          fun d hd => h.sound d (List.mem_cons_of_mem _ hd)⟩

/-! ## Runs -/

theorem stock_plain (b : Builder) : stock [{ builder := b }] = b.components := by
  rw [stock_cons, components_plain]
  exact List.append_nil _

/-- A run stays tidy, whatever is brought to it, as long as no channel that is
brought is a marked one. -/
theorem kept {usable : Channel → Prop} (hmade : ∀ c, own c = true → c.isMade = true)
    (husable : ∀ c, usable c → own c = false) :
    Kept usable fun brought _ ds n => Tidy own brought ds n where
  start {s b w w'} hs hy := by
    have hst := Start.started hy
    refine ⟨hmade, ?_, ?_, fun _ hc => hc.elim, ?_⟩
    · rw [stock_plain]
      rcases hst.components with h | ⟨c, -, h, -⟩ | ⟨src, h, -⟩
      · rw [h]
        exact List.Pairwise.nil
      · rw [h]
        exact List.pairwise_singleton _ _
      · rw [h]
        exact List.pairwise_singleton _ _
    · rw [stock_plain]
      rcases hst.components with h | ⟨c, rfl, h, hn⟩ | ⟨src, h, hk, -, hn⟩
      · rw [h]
        exact fun _ hx => absurd hx List.not_mem_nil
      · rw [h, hn]
        simpa [Component.key] using (hs c List.mem_cons_self).2
      · rw [h, hn]
        simp [Component.key, hk]
    · rw [List.forall_mem_singleton]
      exact Desk.sound_plain hst.sound
  bring {brought b w past} h hb := by
    refine ⟨h.made, h.clear, h.given, fun c hc => ?_, h.sound⟩
    obtain ⟨hu, hk⟩ := hb c hc
    refine ⟨husable c hu, hk.made, fun x hx hkey => ?_⟩
    rw [stock_plain] at hx
    rw [hk.same x hx hkey]
    exact husable c hu
  turn h ht := h.turn ht
  forget h := ⟨h.made, h.clear, h.given, fun _ hc => hc.elim, h.sound⟩
  wait h hle := ⟨h.made, h.clear, fun x hx => Nat.lt_of_lt_of_le (h.given x hx) hle,
    fun _ hc => hc.elim, h.sound⟩

/-- A run keeps whatever a tidy pile keeps in each turn. -/
theorem kept_with {usable : Channel → Prop}
    {J : List Moment → List Desk → Nat → Prop}
    (hmade : ∀ c, own c = true → c.isMade = true)
    (husable : ∀ c, usable c → own c = false)
    (start : ∀ {s b n n'}, (∀ c ∈ s.brought, usable c) → b.Started s n n' →
      Tidy own (fun _ => False) [{ builder := b }] n' →
      J [.first b] [{ builder := b }] n')
    (turn : ∀ {brought past ds m n n'}, Tidy own brought ds n → J past ds n →
      Turn brought ds n m n' → J (past ++ [m]) m.desks n')
    (wait : ∀ {past ds n n'}, J past ds n → n ≤ n' → J past ds n') :
    Kept usable fun brought past ds n => Tidy own brought ds n ∧ J past ds n :=
  have tidy := Tidy.kept hmade husable
  { start := fun hs hy => ⟨tidy.start hs hy,
      start (fun c hc => (hs c hc).1) (Start.started hy) (tidy.start hs hy)⟩
    bring := fun h hb => ⟨@tidy.bring _ _ _ [] h.1 hb, h.2⟩
    turn := fun h ht => ⟨@tidy.turn _ [] _ _ _ _ h.1 ht, turn h.1 h.2 ht⟩
    forget := fun h => ⟨@tidy.forget _ [] _ _ h.1, h.2⟩
    wait := fun h hle => ⟨@tidy.wait [] _ _ _ h.1 hle, wait h.2 hle⟩ }

end Tidy

end FlowAssembly
