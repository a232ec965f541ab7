import FlowAssembly.Proofs.Convergence
import FlowAssembly.Proofs.Outputs

/-!
# Where the components of a branch come from

Whoever takes a branch over has to know what may stand in it. A component of a
branch is the channel that the branch started at, or a channel that the caller
brought into one of its steps, or it was made while the branch was assembled.
There is no fourth origin: whatever a turn puts on a pile of desks stood there
before, was brought, or has a number that was free, and a branch is assembled
on a desk of its own. Branches that start at different channels and are
brought different ones therefore have nothing in common.
-/

namespace FlowAssembly

open Assembly

/-- The key is one of the given ones, or that of a channel that is brought, or
its number is a later one. -/
def Stems (old : List ComponentKey) (brought : Channel → Prop) (n : Nat)
    (k : ComponentKey) : Prop :=
  k ∈ old ∨ (∃ c, brought c ∧ c.key = k) ∨ n ≤ k.number

section

variable {brought : Channel → Prop} {d d' : Desk} {ds ds' : List Desk} {m : Moment}
  {old : List ComponentKey} {k : ComponentKey} {x : Component} {n n' : Nat}

theorem Stems.of_mem (h : k ∈ old) : Stems old brought n k := .inl h

theorem Stems.trans {between : List ComponentKey} (h : Stems between brought n' k)
    (hold : ∀ k ∈ between, Stems old brought n k) (hn : n ≤ n') :
    Stems old brought n k := by
  rcases h with h | h | h
  · exact hold k h
  · exact .inr (.inl h)
  · exact .inr (.inr (Nat.le_trans hn h))

theorem Newcomer.stems {x : Component} (h : Newcomer brought d n (some x) n') :
    Stems (d.components.map Component.key) brought n x.key := by
  cases h with
  | made hk _ => exact .inr (.inr (by rw [hk]))
  | copy hc =>
      rcases hc with hc | ⟨-, hc⟩
      · exact .inr (.inl ⟨_, hc, rfl⟩)
      · exact .inl (List.mem_map_of_mem (f := Component.key) hc)

/-- What stands or lies on a desk behind a turn did so before, was brought or
is new. -/
theorem Deal.Explains.stems {deal : Deal} (h : deal.Explains brought d n d' n')
    (hx : x ∈ d'.components) :
    Stems (d.components.map Component.key) brought n x.key := by
  have hstamp : x.stamp (fun _ => false) ∈
        (d.components ++ deal.new.toList).map (Component.stamp fun _ => false) :=
    h.components_stamps.subset (List.mem_map_of_mem hx)
  obtain ⟨y, hy, hst⟩ := List.mem_map.1 hstamp
  have hkey : y.key = x.key := congrArg Prod.fst hst
  rcases List.mem_append.1 hy with hy | hy
  · exact .of_mem (hkey ▸ List.mem_map_of_mem hy)
  · have hnew := h.new
    rw [Option.mem_toList.1 hy] at hnew
    exact hkey ▸ hnew.stems

theorem Turn.stems (h : Turn brought ds n m n') (hmeets : ∀ d ∈ ds, d.Meets)
    (hx : x ∈ stock m.desks) :
    Stems ((stock ds).map Component.key) brought n x.key := by
  cases h with
  | @work d d' ds _ _ _ hw =>
      rw [stock_cons, List.map_append]
      rcases List.mem_append.1 (stock_cons d' ds ▸ hx) with hx | hx
      · obtain ⟨deal, hexplains⟩ := hw.explains (hmeets d List.mem_cons_self)
        exact (hexplains.stems hx).trans
          (fun k hk => .of_mem (List.mem_append_left _ hk)) (Nat.le_refl n)
      · exact .of_mem (List.mem_append_right _ (List.mem_map_of_mem hx))
  | @push d ds c rest _ hoffers =>
      have hx' : x = .channel c ∨
          x ∈ ({ d with channels := rest } : Desk).components ∨ x ∈ stock ds := by
        simpa [stock_cons, Tidy.components_plain, Tidy.components_branch] using hx
      rw [stock_cons, List.map_append]
      cases hoffers with
      | ready hp =>
          have hready : ∀ c' ∈ c :: rest,
              Stems (d.components.map Component.key ++ (stock ds).map Component.key)
                brought n c'.key :=
            fun c' hc' =>
              .of_mem (List.mem_append_left _
                (List.mem_map.2
                  ⟨.channel c',
                    List.mem_append_right _
                      (List.mem_append_left _
                        (List.mem_map_of_mem (hp.symm.subset hc'))), rfl⟩))
          rcases hx' with rfl | hx | hx
          · exact hready c List.mem_cons_self
          · rcases List.mem_append.1 hx with hx | hx
            · exact .of_mem
                (List.mem_append_left _
                  (List.mem_map_of_mem (List.mem_append_left _ hx)))
            · rcases List.mem_append.1 hx with hx | hx
              · obtain ⟨c', hc', rfl⟩ := List.mem_map.1 hx
                exact hready c' (List.mem_cons_of_mem _ hc')
              · exact .of_mem (List.mem_append_left _ (List.mem_map_of_mem
                  (List.mem_append_right _ (List.mem_append_right _ hx))))
          · exact .of_mem (List.mem_append_right _ (List.mem_map_of_mem hx))
      | copy hlends =>
          rcases hx' with rfl | hx | hx
          · exact (Newcomer.copy hlends).stems.trans
              (fun k hk => .of_mem (List.mem_append_left _ hk)) (Nat.le_refl n)
          · exact .of_mem (List.mem_append_left _ (List.mem_map_of_mem hx))
          · exact .of_mem (List.mem_append_right _ (List.mem_map_of_mem hx))
  | @pop b d ds _ =>
      refine .of_mem (List.mem_map_of_mem ?_)
      have hx' : x ∈ d.registered ∨ x ∈ b.flushDeferred.registry.components ∨
          x ∈ d.loose ∨ x ∈ stock ds := by
        simpa [stock_cons, Desk.components, Desk.registered, Desk.branched,
          Builder.toBranch, Desk.loose, or_assoc] using hx
      rw [stock_cons, stock_cons, Tidy.components_plain]
      rcases hx' with hx | hx | hx | hx
      · exact List.mem_append_right _
          (List.mem_append_left _ (List.mem_append_left _ hx))
      · exact List.mem_append_left _ (b.condenses_flushDeferred.subperm.subset hx)
      · exact List.mem_append_right _
          (List.mem_append_left _ (List.mem_append_right _ hx))
      · exact List.mem_append_right _ (List.mem_append_right _ hx)
  | @fresh b b' d ds _ hr hc =>
      refine .of_mem (List.mem_map_of_mem ?_)
      rw [stock_cons, Tidy.components_plain, Builder.components_blank hr hc] at hx
      rw [stock_cons]
      exact List.mem_append_right _ hx

/-- What is on a tidy pile after some turns was there before, was brought or
is new. -/
theorem Tidy.stems {own : Channel → Bool} (h : Tidy own brought ds n)
    (hp : Passes brought ds n ds' n') (hx : x ∈ stock ds') :
    Stems ((stock ds).map Component.key) brought n x.key := by
  obtain ⟨history, hturns⟩ := hp
  induction hturns with
  | refl => exact .of_mem (List.mem_map_of_mem hx)
  | step ht _ ih =>
      refine (ih (h.turn ht) hx).trans (fun k hk => ?_) (h.turn_le ht)
      obtain ⟨y, hy, rfl⟩ := List.mem_map.1 hk
      exact ht.stems (fun d hd => (h.sound d hd).meets) hy

theorem Tidy.passes_le {own : Channel → Bool} (h : Tidy own brought ds n)
    (hp : Passes brought ds n ds' n') :
    n ≤ n' := by
  obtain ⟨history, hturns⟩ := hp
  induction hturns with
  | refl => exact Nat.le_refl _
  | step ht _ ih => exact Nat.le_trans (h.turn_le ht) (ih (h.turn ht))

end

/-! ## Branches -/

namespace Builder

variable {b : Builder} {br : Branch} {branches : List Branch}
  {flow : Channel × List Step} {flows : List (Channel × List Step)} {n : Nat}
  {w w' : Workshop}

/-- The keys of the channels that a flow is given: the one that it starts at,
and those that the caller brings. -/
def givenKeys (flow : Channel × List Step) : List ComponentKey :=
  flow.1.key :: (broughtBy flow.2).map Channel.key

theorem perm_givenKeys (flows : List (Channel × List Step)) :
    (flows.flatMap givenKeys).Perm ((flows.map fun flow => flow.1.key) ++
      ((flows.map Prod.snd).flatMap broughtBy).map Channel.key) := by
  rw [List.flatMap_map, List.map_flatMap, List.map_eq_flatMap]
  exact (List.flatMap_append_perm flows (fun flow => [flow.1.key]) fun flow =>
    (broughtBy flow.2).map Channel.key).symm

/-- A desk at which nothing stands. -/
def blank (b : Builder) : Desk where
  builder := { b with registry := .empty, cursor := {} }

/-- A branch that starts, over a desk at which nothing stands. -/
def alone (b : Builder) (seed : Channel) : List Desk :=
  [{ builder := b.branch seed }, b.blank]

theorem stock_alone (b : Builder) (seed : Channel) :
    stock (b.alone seed) = [.channel seed] := by
  have hblank : b.blank.components = [] := by
    rw [blank, Tidy.components_plain, components_blank rfl rfl]
  rw [alone, stock_cons, stock_cons, hblank, Tidy.components_plain,
    Tidy.components_branch]
  rfl

theorem tidy_alone (hgiven : ∀ k ∈ givenKeys flow, k.number < n) :
    Tidy (fun _ => false) (· ∈ broughtBy flow.2) (b.alone flow.1) n := by
  refine ⟨nofun, ?_, ?_, ?_, ?_⟩
  · rw [stock_alone]
    exact List.pairwise_singleton _ _
  · rw [stock_alone]
    intro x hx
    rw [List.mem_singleton.1 hx]
    exact hgiven _ List.mem_cons_self
  · refine fun c hc =>
      ⟨rfl, hgiven _ (List.mem_cons_of_mem _ (List.mem_map_of_mem hc)),
        fun x hx _ => ?_⟩
    rw [stock_alone] at hx
    rw [List.mem_singleton.1 hx]
    rfl
  · simp only [alone, List.forall_mem_cons, List.not_mem_nil, false_imp_iff,
      implies_true, and_true]
    exact ⟨Desk.sound_plain (b.sound_branch flow.1),
      Desk.sound_plain (sound_blank rfl)⟩

/-- A branch may be followed at a desk of its own. -/
theorem passes_alone (h : Yields (b.runBranch flow) w br w') :
    ∃ nested : Builder, br = nested.toBranch ∧
      Passes (· ∈ broughtBy flow.2) (b.alone flow.1) w.nextComponent
        [{ builder := nested }, b.blank] w'.nextComponent := by
  simp only [runBranch, yields_bind] at h
  obtain ⟨nested, w₁, hy, hinto⟩ := h
  obtain ⟨rfl, hnext⟩ := eq_toBranch hinto
  rw [hnext]
  exact ⟨nested, rfl, LeadsWithin.passes (leadsWithin flow.2 fun c hc => hc) hy⟩

theorem next_le_of_runBranch
    (hgiven : ∀ k ∈ givenKeys flow, k.number < w.nextComponent)
    (h : Yields (b.runBranch flow) w br w') :
    w.nextComponent ≤ w'.nextComponent := by
  obtain ⟨nested, -, hpasses⟩ := passes_alone h
  exact (tidy_alone hgiven).passes_le hpasses

/-- A component of a branch has a key that the branch was given, or a number
that was free when its assembly began. In either case its number is not free
any more. -/
theorem stems_of_runBranch
    (hgiven : ∀ k ∈ givenKeys flow, k.number < w.nextComponent)
    (h : Yields (b.runBranch flow) w br w') {x : Component}
    (hx : x ∈ br.registry.components) :
    (x.key ∈ givenKeys flow ∨ w.nextComponent ≤ x.key.number) ∧
    x.key.number < w'.nextComponent := by
  obtain ⟨nested, rfl, hpasses⟩ := passes_alone h
  have htidy :
      Tidy (fun _ => false) (· ∈ broughtBy flow.2)
        (b.alone flow.1) w.nextComponent :=
    tidy_alone hgiven
  have hx : x ∈ stock [{ builder := nested }, b.blank] :=
    Tidy.subset_stock _ _ (nested.condenses_flushDeferred.subperm.subset hx)
  refine ⟨?_, (htidy.passes hpasses).given x hx⟩
  have hstems := htidy.stems hpasses hx
  rw [stock_alone] at hstems
  rcases hstems with hk | ⟨c, hc, hk⟩ | hk
  · exact .inl (List.mem_singleton.1 hk ▸ List.mem_cons_self)
  · exact .inl (hk ▸ List.mem_cons_of_mem _ (List.mem_map_of_mem hc))
  · exact .inr hk

/-- An endpoint or a source of a branch was made while the branch was
assembled. -/
theorem made_of_runBranch
    (hgiven : ∀ k ∈ givenKeys flow, k.number < w.nextComponent)
    (h : Yields (b.runBranch flow) w br w') {x : Component}
    (hx : x ∈ br.registry.components) (hworker : x.isWorker = true) :
    w.nextComponent ≤ x.key.number := by
  obtain ⟨nested, rfl, history, ht⟩ := passes_alone h
  have hstart : ∀ x ∈ standing (b.alone flow.1), x.isWorker = true →
      w.nextComponent ≤ x.key.number := by
    intro x hx hworker
    have hx := standing_subset_stock _ hx
    rw [stock_alone] at hx
    rw [List.mem_singleton.1 hx] at hworker
    cases hworker
  obtain ⟨-, -, hmade⟩ := ht.keeps
    (I := fun ds n => Tidy (fun _ => false) (· ∈ broughtBy flow.2) ds n ∧
      w.nextComponent ≤ n ∧ ∀ x ∈ standing ds, x.isWorker = true →
        w.nextComponent ≤ x.key.number)
    (fun {_ _ _ _} ⟨htidy, hle, hmade⟩ hturn => by
      refine ⟨htidy.turn hturn, Nat.le_trans hle (htidy.turn_le hturn),
        fun x hx hworker => ?_⟩
      cases htidy.turn_origin hturn hx hworker with
      | stood hm => exact hmade x hm hworker
      | made hk => rwa [hk]
      | bound hm =>
          rw [Component.isWorker_withOutput] at hworker
          rw [Component.key_withOutput]
          exact hmade _ hm hworker)
    ⟨tidy_alone hgiven, Nat.le_refl _, hstart⟩
  refine hmade x ?_ hworker
  rw [standing_cons, Desk.registered_plain]
  exact List.mem_append_left _ (nested.condenses_flushDeferred.subperm.subset hx)

/-- What a branch ended on stands in it. -/
theorem sound_of_runBranch
    (hgiven : ∀ k ∈ givenKeys flow, k.number < w.nextComponent)
    (h : Yields (b.runBranch flow) w br w') : br.Sound := by
  obtain ⟨nested, rfl, hpasses⟩ := passes_alone h
  exact (((tidy_alone hgiven).passes hpasses).sound _
    List.mem_cons_self).builder.toBranch

theorem stems_of_runBranches
    (hgiven : ∀ k ∈ flows.flatMap givenKeys, k.number < w.nextComponent)
    (h : YieldsAll b.runBranch w flows branches w') :
    w.nextComponent ≤ w'.nextComponent ∧
    ∀ x ∈ branches.flatMap fun br => br.registry.components,
      (x.key ∈ flows.flatMap givenKeys ∨ w.nextComponent ≤ x.key.number) ∧
      x.key.number < w'.nextComponent := by
  induction h with
  | nil w => exact ⟨Nat.le_refl _, fun x hx => absurd hx List.not_mem_nil⟩
  | @cons w w₁ w' flow br flows branches hy hys ih =>
      simp only [List.flatMap_cons, List.forall_mem_append] at hgiven ⊢
      have hle := next_le_of_runBranch hgiven.1 hy
      obtain ⟨hle', hrest⟩ := ih fun k hk => Nat.lt_of_lt_of_le (hgiven.2 k hk) hle
      refine ⟨Nat.le_trans hle hle', fun x hx => ?_, fun x hx => ?_⟩
      · obtain ⟨hfrom, hlt⟩ := stems_of_runBranch hgiven.1 hy hx
        exact ⟨hfrom.imp_left (List.mem_append_left _), Nat.lt_of_lt_of_le hlt hle'⟩
      · obtain ⟨hfrom, hlt⟩ := hrest x hx
        exact ⟨hfrom.imp (List.mem_append_right _) (Nat.le_trans hle), hlt⟩

theorem made_of_runBranches
    (hgiven : ∀ k ∈ flows.flatMap givenKeys, k.number < w.nextComponent)
    (h : YieldsAll b.runBranch w flows branches w') :
    ∀ x ∈ branches.flatMap fun br => br.registry.components, x.isWorker = true →
      w.nextComponent ≤ x.key.number := by
  induction h with
  | nil w => exact fun x hx => absurd hx List.not_mem_nil
  | @cons w w₁ w' flow br flows branches hy hys ih =>
      simp only [List.flatMap_cons, List.forall_mem_append] at hgiven ⊢
      have hle := next_le_of_runBranch hgiven.1 hy
      exact ⟨fun x hx => made_of_runBranch hgiven.1 hy hx, fun x hx hworker =>
        Nat.le_trans hle
          (ih (fun k hk => Nat.lt_of_lt_of_le (hgiven.2 k hk) hle) x hx hworker)⟩

theorem sound_of_runBranches
    (hgiven : ∀ k ∈ flows.flatMap givenKeys, k.number < w.nextComponent)
    (h : YieldsAll b.runBranch w flows branches w') :
    ∀ br ∈ branches, br.Sound := by
  induction h with
  | nil w => exact fun br hbr => absurd hbr List.not_mem_nil
  | @cons w w₁ w' flow br flows branches hy hys ih =>
      simp only [List.flatMap_cons, List.forall_mem_append] at hgiven
      have hle := next_le_of_runBranch hgiven.1 hy
      exact List.forall_mem_cons.2 ⟨sound_of_runBranch hgiven.1 hy,
        ih fun k hk => Nat.lt_of_lt_of_le (hgiven.2 k hk) hle⟩

/-- Closing branches that are left open adds bridges to them and nothing
else. -/
theorem stems_of_leaveOpen {closed : List Branch}
    (h : YieldsAll (fun br => br.leaveOpen b) w branches closed w') :
    ∀ x ∈ closed.flatMap fun br => br.registry.components,
      x.key ∈
        (branches.flatMap fun br => br.registry.components).map Component.key ∨
      w.nextComponent ≤ x.key.number := by
  induction h with
  | nil w => exact fun x hx => absurd hx List.not_mem_nil
  | @cons w w₁ w' br br' branches closed hy hys ih =>
      have hle : w.nextComponent ≤ w₁.nextComponent :=
        ((br.leaveOpen_adds b).of_yields hy).components
      rw [List.flatMap_cons, List.flatMap_cons, List.map_append,
        List.forall_mem_append]
      refine ⟨fun x hx => ?_,
        fun x hx => (ih x hx).imp (List.mem_append_right _) (Nat.le_trans hle)⟩
      rw [List.mem_append]
      rcases Branch.of_yields_leaveOpen hy with ⟨-, -, rfl⟩ | ⟨last, key, -, ha⟩
      · exact .inl (.inl (List.mem_map_of_mem hx))
      · obtain ⟨e, rfl, -, hfresh, -⟩ := Branch.linked_of_yields ha
        rcases List.mem_append.1 ((Registry.condenses_add _ _).subperm.subset hx)
          with hx | hx
        · exact .inl (.inl (List.mem_map_of_mem hx))
        · rw [List.mem_singleton.1 hx]
          exact .inr (Nat.le_of_eq (congrArg ComponentKey.number hfresh.key).symm)

theorem lt_of_leaveOpen {closed : List Branch}
    (hlt : ∀ x ∈ branches.flatMap fun br => br.registry.components,
      x.key.number < w.nextComponent)
    (h : YieldsAll (fun br => br.leaveOpen b) w branches closed w') :
    ∀ x ∈ closed.flatMap fun br => br.registry.components,
      x.key.number < w'.nextComponent := by
  induction h with
  | nil w => exact fun x hx => absurd hx List.not_mem_nil
  | @cons w w₁ w' br br' branches closed hy hys ih =>
      simp only [List.flatMap_cons, List.forall_mem_append] at hlt ⊢
      have hle : w.nextComponent ≤ w₁.nextComponent :=
        ((br.leaveOpen_adds b).of_yields hy).components
      have hle' : w₁.nextComponent ≤ w'.nextComponent :=
        ((b.leaveOpen_adds branches).of_yields hys.mapM).components
      refine ⟨fun x hx => ?_, ih fun x hx => Nat.lt_of_lt_of_le (hlt.2 x hx) hle⟩
      rcases Branch.of_yields_leaveOpen hy with ⟨-, -, rfl⟩ | ⟨last, key, -, ha⟩
      · exact Nat.lt_of_lt_of_le (hlt.1 x hx) (Nat.le_trans hle hle')
      · obtain ⟨e, rfl, -, hfresh, -, -, hnext⟩ := Branch.linked_of_yields ha
        rcases List.mem_append.1 ((Registry.condenses_add _ _).subperm.subset hx)
          with hx | hx
        · exact Nat.lt_of_lt_of_le (hlt.1 x hx) (Nat.le_trans hle hle')
        · rw [List.mem_singleton.1 hx, show (Component.endpoint e).key = _
              from hfresh.key]
          exact Nat.lt_of_lt_of_le (hnext ▸ Nat.lt_succ_self _) hle'

/-- Branches that have met hold what they held, and links that are new. -/
theorem lt_of_converge {m : Channel} {closed : List Branch}
    (hlt : ∀ x ∈ branches.flatMap fun br => br.registry.components,
      x.key.number < w.nextComponent)
    (h : YieldsAll (fun br => br.converge b m) w branches closed w') :
    ∀ x ∈ closed.flatMap fun br => br.registry.components,
      x.key.number < w'.nextComponent := by
  obtain ⟨links, hclosed, -, hlinks⟩ := components_of_converge (fun br hbr x hx =>
    hlt x (List.mem_flatMap.2 ⟨br, hbr, hx⟩)) h
  intro x hx
  rcases List.mem_append.1 (hclosed.subset hx) with hx | hx
  · have hm := List.mem_map_of_mem (f := Component.stamp fun _ => false) hx
    rw [stamps_joined] at hm
    obtain ⟨y, hy, hst⟩ := List.mem_map.1 hm
    have hk : y.key = x.key := congrArg Prod.fst hst
    exact hk ▸ Nat.lt_of_lt_of_le (hlt y hy) hlinks.next_le
  · exact (hlinks.mem hx).2

/-- A channel that branches meet on was given to one of their flows, or it was
not there when the first of them was assembled. -/
theorem stems_of_mergeChannel {m : Channel} {w₁ w₂ : Workshop}
    (hgiven : ∀ k ∈ flows.flatMap givenKeys, k.number < w.nextComponent)
    (h : YieldsAll b.runBranch w flows branches w₁)
    (hm : Yields (mergeChannel branches) w₁ m w₂) :
    (m.key ∈ flows.flatMap givenKeys ∨ w.nextComponent ≤ m.key.number) ∧
    m.key.number < w₂.nextComponent := by
  obtain ⟨hle, hstems⟩ := stems_of_runBranches hgiven h
  rcases of_yields_mergeChannel hm with ⟨hfound, rfl⟩ | ⟨-, hkey, rfl⟩
  · obtain ⟨br, hbr, x, hx, hk⟩ :=
      exists_key_of_findSome (sound_of_runBranches hgiven h) hfound
    exact hk ▸ hstems x (List.mem_flatMap.2 ⟨br, hbr, hx⟩)
  · rw [hkey]
    exact ⟨.inr hle, Nat.lt_succ_self _⟩

/-- A key that two branches have in common was given to both of them. So if
some of the keys are given once, each of these stands in one branch only. -/
theorem nodup_filter_of_runBranches (p : ComponentKey → Bool)
    (hgiven : ∀ k ∈ flows.flatMap givenKeys, k.number < w.nextComponent)
    (hn : ((flows.flatMap givenKeys).filter p).Nodup)
    (h : YieldsAll b.runBranch w flows branches w') :
    (((branches.flatMap fun br => br.registry.components).map Component.key).filter
      p).Nodup := by
  induction h with
  | nil w => exact List.nodup_nil
  | @cons w w₁ w' flow br flows branches hy hys ih =>
      simp only [List.flatMap_cons, List.forall_mem_append, List.filter_append,
        List.nodup_append] at hgiven hn
      have hle := next_le_of_runBranch hgiven.1 hy
      have hgiven' : ∀ k ∈ flows.flatMap givenKeys, k.number < w₁.nextComponent :=
        fun k hk => Nat.lt_of_lt_of_le (hgiven.2 k hk) hle
      rw [List.flatMap_cons, List.map_append, List.filter_append, List.nodup_append]
      refine ⟨br.registry.nodup_keys.filter _, ih hgiven' hn.2.1, ?_⟩
      intro k hk k' hk' heq
      obtain ⟨hk, hp⟩ := List.mem_filter.1 hk
      obtain ⟨hk', hp'⟩ := List.mem_filter.1 hk'
      obtain ⟨x, hx, rfl⟩ := List.mem_map.1 hk
      obtain ⟨y, hy', rfl⟩ := List.mem_map.1 hk'
      obtain ⟨hfrom, hlt⟩ := stems_of_runBranch hgiven.1 hy hx
      obtain ⟨hfrom', -⟩ := (stems_of_runBranches hgiven' hys).2 y hy'
      rcases hfrom' with hk' | hk'
      · rcases hfrom with hk | hk
        · exact hn.2.2 _ (List.mem_filter.2 ⟨hk, hp⟩) _
            (List.mem_filter.2 ⟨hk', hp'⟩) heq
        · have hlt' := hgiven.2 _ hk'
          rw [← heq] at hlt'
          exact absurd hk (Nat.not_le.2 hlt')
      · rw [← heq] at hk'
        exact absurd hlt (Nat.not_lt.2 hk')

/-- Branches that are given different channels have no component in common. -/
theorem nodup_of_runBranches
    (hgiven : ∀ k ∈ flows.flatMap givenKeys, k.number < w.nextComponent)
    (hn : (flows.flatMap givenKeys).Nodup)
    (h : YieldsAll b.runBranch w flows branches w') :
    ((branches.flatMap fun br => br.registry.components).map
      Component.key).Nodup := by
  have hall :=
    nodup_filter_of_runBranches (fun _ => true) hgiven (by rwa [List.filter_true]) h
  rwa [List.filter_true] at hall

end Builder

/-! ## The branches of a router -/

/-- What is made out of nothing was not there before. -/
theorem Workshop.made_of_spent {w w' : Workshop} {keys : List ComponentKey}
    (h : w.Spent [] w' keys) :
    keys.Nodup ∧ ∀ k ∈ keys, w.nextComponent ≤ k.number ∧
      k.number < w'.nextComponent := by
  have hcount : ∀ k, keys.count k + FlowAssembly.supply w'.nextComponent k ≤
      FlowAssembly.supply w.nextComponent k := by
    intro k
    simpa using h.count k
  refine ⟨List.nodup_iff_count.2 fun k => ?_, fun k hk => ?_⟩
  · have hk := hcount k
    have hone : FlowAssembly.supply w.nextComponent k ≤ 1 := by
      unfold FlowAssembly.supply
      split <;> omega
    omega
  · have hpos := List.count_pos_iff.2 hk
    have hk := hcount k
    unfold FlowAssembly.supply at hk
    split at hk <;> split at hk <;> omega

/-- The flows of a call with the channels that they start at, for a call of a
router. -/
structure Step.Seeded (s : Step) (w : Workshop) (flows : List (Channel × List Step))
    (w₁ : Workshop) : Prop where
  steps : flows.map Prod.snd = s.flows
  distinct : (flows.map fun flow => flow.1.key).Nodup
  made : ∀ flow ∈ flows, w.nextComponent ≤ flow.1.key.number ∧
    flow.1.key.number < w₁.nextComponent
  le : w.nextComponent ≤ w₁.nextComponent

namespace Step

variable {s : Step} {b : Builder} {st : Stage} {flows : List (Channel × List Step)}
  {w w₁ : Workshop}

theorem Seeded.of_spent {flows : List (Channel × List Step)}
    (hs : flows.map Prod.snd = s.flows)
    (h : w.Spent [] w₁ (flows.map fun flow => flow.1.key))
    (hle : w.nextComponent ≤ w₁.nextComponent) :
    s.Seeded w flows w₁ :=
  ⟨hs, (Workshop.made_of_spent h).1,
    fun _ hf => (Workshop.made_of_spent h).2 _
      (List.mem_map_of_mem (f := fun flow : Channel × List Step => flow.1.key) hf),
    hle⟩

/-- Each flow of a router starts at a channel that was made for it. -/
theorem seeded_of_stage (hr : s.routes = true) (h : Yields (s.stage b) w st w₁) :
    st.builder = b ∧ s.Seeded w st.flows w₁ := by
  cases s with
  | channel | endpoint | wireTap | intercept | publishSubscribe | scatterGather
  | withId | withSession | fresh
  | faulty => cases hr
  | route plan mappings =>
      simp only [stage, yields_bind, yields_pure, yields_ensure,
        Builder.yields_ensureOpen] at h
      obtain ⟨parts, _, hm, _, _, ⟨-, rfl⟩, _, _, ⟨-, rfl⟩, rfl, rfl⟩ := h
      obtain ⟨hsteps, hspent⟩ := spent_makeRouter hm
      exact ⟨rfl,
        .of_spent hsteps hspent
          ((plan.make_leaves mappings).of_yields hm).components⟩
  | routeToRecipients plan recipients =>
      simp only [stage, yields_bind, yields_pure, yields_ensure,
        Builder.yields_ensureOpen] at h
      obtain ⟨parts, _, hm, _, _, ⟨-, rfl⟩, _, _, ⟨-, rfl⟩, rfl, rfl⟩ := h
      obtain ⟨hsteps, hspent⟩ := spent_makeRecipients hm
      exact ⟨rfl,
        .of_spent hsteps hspent
          ((plan.make_leaves recipients).of_yields hm).components⟩

theorem Seeded.perm (h : s.Seeded w flows w₁) (hr : s.routes = true) :
    (flows.flatMap Builder.givenKeys).Perm
      ((flows.map fun flow => flow.1.key) ++ s.brought.map Channel.key) := by
  have hbrought : s.brought = (flows.map Prod.snd).flatMap broughtBy := by
    rw [brought_eq, h.steps]
    cases s with
    | channel | endpoint | wireTap | intercept | publishSubscribe | scatterGather
    | withId | withSession | fresh
    | faulty => cases hr
    | route | routeToRecipients => rfl
  rw [hbrought]
  exact Builder.perm_givenKeys flows

/-- The channels that the flows of a router are given were all there when the
first of the flows is assembled. -/
theorem Seeded.given (h : s.Seeded w flows w₁) (hr : s.routes = true)
    (hb : ∀ c ∈ s.brought, c.key.number < w.nextComponent) :
    ∀ k ∈ flows.flatMap Builder.givenKeys, k.number < w₁.nextComponent := by
  intro k hk
  rcases List.mem_append.1 ((h.perm hr).subset hk) with hk | hk
  · obtain ⟨flow, hf, rfl⟩ := List.mem_map.1 hk
    exact (h.made flow hf).2
  · obtain ⟨c, hc, rfl⟩ := List.mem_map.1 hk
    exact Nat.lt_of_lt_of_le (hb c hc) h.le

/-- No channel is given twice to the flows of a router, if the caller brings
none twice. -/
theorem Seeded.nodup (h : s.Seeded w flows w₁) (hr : s.routes = true)
    (hb : ∀ c ∈ s.brought, c.key.number < w.nextComponent)
    (hn : (s.brought.map Channel.key).Nodup) :
    (flows.flatMap Builder.givenKeys).Nodup := by
  rw [(h.perm hr).nodup_iff, List.nodup_append]
  refine ⟨h.distinct, hn, ?_⟩
  simp only [List.forall_mem_map]
  intro flow hf c hc heq
  have hlt := hb c hc
  rw [← heq] at hlt
  exact absurd (h.made flow hf).1 (Nat.not_le.2 hlt)

end Step

end FlowAssembly
