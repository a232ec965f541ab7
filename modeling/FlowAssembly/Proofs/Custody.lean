import FlowAssembly.Proofs.Tidiness

/-!
# Custody

Nothing that is registered is lost on the way into a finished flow, and
nothing stands in it twice. What a branch, a held-back tap or a side
registered is handed over as a whole by whoever takes it over; the keys are
kept even where several of them registered the same channel. There is one way
out: a flow that goes on with another builder than the one that it was handed
leaves behind whatever stood in that.
-/

namespace FlowAssembly

open Assembly

/-- The keys that are registered at some moment, in the main registry or in
any other. -/
def registeredKeys (history : List Moment) : List ComponentKey :=
  history.flatMap fun m => (standing m.desks).map Component.key

/-- The keys of what is thrown away. -/
def droppedKeys (history : List Moment) : List ComponentKey :=
  history.flatMap fun m => m.dropped.map Component.key

theorem mem_keys_standing {ds : List Desk} {k : ComponentKey} :
    k ∈ (standing ds).map Component.key ↔
      ∃ d ∈ ds, k ∈ d.registered.map Component.key := by
  simp only [standing, List.map_flatMap, List.mem_flatMap]

section

variable {brought : Channel → Prop} {d d' : Desk} {ds : List Desk}
  {link : Option Link} {m : Moment} {n n' : Nat}

/-- A turn at a desk keeps the keys that are registered there. -/
theorem Work.keys (h : Work brought d n link d' n') (hm : d.Meets) :
    d.registered.map Component.key ⊆ d'.registered.map Component.key := by
  obtain ⟨deal, he⟩ := h.explains hm
  exact fun k hk => he.mem_keys.2 (.inl hk)

/-- A turn keeps the keys that are registered, but for those of a builder that
is thrown away. -/
theorem Turn.keys (h : Turn brought ds n m n') (hm : ∀ d ∈ ds, d.Meets)
    {k : ComponentKey} (hk : k ∈ (standing ds).map Component.key) :
    k ∈ (standing m.desks).map Component.key ∨ k ∈ m.dropped.map Component.key := by
  rw [mem_keys_standing] at hk ⊢
  obtain ⟨d, hd, hk⟩ := hk
  cases h with
  | work hw =>
      rcases List.mem_cons.1 hd with rfl | hd
      · exact .inl ⟨_, List.mem_cons_self, hw.keys (hm _ List.mem_cons_self) hk⟩
      · exact .inl ⟨d, List.mem_cons_of_mem _ hd, hk⟩
  | push =>
      rcases List.mem_cons.1 hd with rfl | hd
      · exact .inl ⟨_, List.mem_cons_of_mem _ List.mem_cons_self, hk⟩
      · exact .inl ⟨d, List.mem_cons_of_mem _ (List.mem_cons_of_mem _ hd), hk⟩
  | @pop b d' ds =>
      rcases List.mem_cons.1 hd with rfl | hd
      · refine .inl ⟨_, List.mem_cons_self, ?_⟩
        rw [Desk.registered_plain] at hk
        have hflushed := b.condenses_flushDeferred.mem_keys_iff.2 hk
        simp only [Desk.registered, Desk.branched, List.flatMap_append,
          List.map_append, List.mem_append]
        exact .inr (.inr (by simpa [Builder.toBranch] using hflushed))
      · rcases List.mem_cons.1 hd with rfl | hd
        · refine .inl ⟨_, List.mem_cons_self, ?_⟩
          simp only [Desk.registered, Desk.branched, List.flatMap_append,
            List.map_append, List.mem_append] at hk ⊢
          exact hk.imp_right .inl
        · exact .inl ⟨d, List.mem_cons_of_mem _ hd, hk⟩
  | fresh =>
      rcases List.mem_cons.1 hd with rfl | hd
      · rw [Desk.registered_plain] at hk
        exact .inr hk
      · exact .inl ⟨d, List.mem_cons_of_mem _ hd, hk⟩

/-- What is thrown away was registered. -/
theorem Turn.dropped_standing (h : Turn brought ds n m n') :
    m.dropped ⊆ standing ds := by
  cases h with
  | work | push | pop => exact List.nil_subset _
  | fresh =>
      rw [standing, List.flatMap_cons, Desk.registered_plain]
      exact List.subset_append_left _ _

end

/-- The keys of a history are accounted for: each is registered still, or was
thrown away. -/
structure Accounted (past : List Moment) (ds : List Desk) : Prop where
  last : ∃ m ∈ past, m.desks = ds
  kept : ∀ k ∈ registeredKeys past, k ∈ (standing ds).map Component.key ∨
    k ∈ droppedKeys past
  dropped : droppedKeys past ⊆ registeredKeys past

namespace Accounted

variable {brought : Channel → Prop} {past : List Moment} {ds : List Desk}
  {m : Moment} {n n' : Nat}

theorem first (b : Builder) : Accounted [.first b] [{ builder := b }] where
  last := ⟨_, List.mem_singleton_self _, rfl⟩
  kept k hk := .inl (by simpa [registeredKeys, Moment.first] using hk)
  dropped := by simp [droppedKeys, Moment.first]

theorem turn (h : Accounted past ds) (ht : Turn brought ds n m n')
    (hm : ∀ d ∈ ds, d.Meets) :
    Accounted (past ++ [m]) m.desks := by
  have hregistered : registeredKeys (past ++ [m]) = registeredKeys past ++
        (standing m.desks).map Component.key := by
    simp [registeredKeys]
  have hdropped : droppedKeys (past ++ [m]) = droppedKeys past ++
        m.dropped.map Component.key := by
    simp [droppedKeys]
  refine ⟨⟨m, by simp, rfl⟩, fun k hk => ?_, ?_⟩
  · rw [hregistered, List.mem_append] at hk
    rw [hdropped, List.mem_append]
    rcases hk with hk | hk
    · rcases h.kept k hk with hk | hk
      · exact (ht.keys hm hk).imp_right .inr
      · exact .inr (.inl hk)
    · exact .inl hk
  · rw [hregistered, hdropped]
    refine List.append_subset.2
      ⟨List.Subset.trans h.dropped (List.subset_append_left _ _), ?_⟩
    obtain ⟨last, hlast, rfl⟩ := h.last
    refine List.Subset.trans (List.map_subset _ ht.dropped_standing)
      (List.Subset.trans ?_ (List.subset_append_left _ _))
    exact fun k hk => List.mem_flatMap.2 ⟨last, hlast, hk⟩

/-- Whatever a run goes through is accounted for. -/
theorem along : Kept (fun _ => True) fun brought past ds n =>
      Tidy (fun _ => false) brought ds n ∧ Accounted past ds :=
  Tidy.kept_with nofun (fun _ _ => rfl) (fun _ _ _ => first _)
    (fun htidy h ht => h.turn ht fun d hd => (htidy.sound d hd).meets) fun h _ => h

end Accounted

variable {usable : Channel → Prop} {program : List Step} {g : FlowGraph}
  {history : List Moment}

/-- Where every flow goes on with the builder that it was handed, nothing is
thrown away. -/
theorem Finished.dropped_nil (h : Finished usable program g history)
    (hc : ∀ s ∈ program, s.Contained) :
    ∀ m ∈ history, m.dropped = [] := by
  have hunderway : ∀ {program b w past}, Underway usable program b w past →
      (∀ s ∈ program, s.Contained) →
      ∀ m ∈ past, m.dropped = [] := by
    intro program b w past h
    induction h with
    | start =>
        intro _ m hm
        obtain rfl := List.mem_singleton.1 hm
        rfl
    | @call _ s _ _ _ _ _ _ _ _ _ _ _ hshows ih =>
        intro hc m hm
        rcases List.mem_append.1 hm with hm | hm
        · exact ih (fun s hs => hc s (List.mem_append_left _ hs)) m hm
        · by_contra hne
          obtain ⟨left, b, hr, -⟩ := hshows.dropped m hm hne
          exact (hc s
            (List.mem_append_right _ (List.mem_singleton_self s))).not_reaches_fresh
            hr
    | meanwhile _ _ ih => exact ih
  cases h with
  | finish hu _ _ _ hshows =>
      intro m hm
      rcases List.mem_append.1 hm with hm | hm
      · exact hunderway hu hc m hm
      · by_contra hne
        obtain ⟨left, b, hr, -⟩ := hshows.dropped m hm hne
        exact hr

/-- Whatever calls a builder went through, once it is finished every key that
was registered on the way stands in the graph, or in a nested builder that its
flow threw away; and no key stands in the graph twice. Where no flow throws
its builder away, the graph has the keys that were registered and no
others. -/
theorem custody (h : Finished (fun _ => True) program g history) :
    (∀ k, k ∈ registeredKeys history ↔
      k ∈ g.components.map Component.key ∨ k ∈ droppedKeys history) ∧
    (g.components.map Component.key).Nodup ∧
    ((∀ s ∈ program, s.Contained) →
      ∀ k, k ∈ registeredKeys history ↔ k ∈ g.components.map Component.key) := by
  obtain ⟨-, b, -, -, -, -, -, -, hg, -, -, hacc⟩ := h.kept Accounted.along
  have hkeys : ∀ k, k ∈ g.components.map Component.key ↔
      k ∈ (standing [{ builder := b }]).map Component.key := by
    intro k
    rw [hg, b.condenses_flushDeferred.mem_keys_iff, standing,
      List.flatMap_singleton, Desk.registered_plain]
  have hall : ∀ k, k ∈ registeredKeys history ↔ k ∈ g.components.map Component.key ∨
      k ∈ droppedKeys history := by
    intro k
    rw [hkeys]
    refine ⟨hacc.kept k, ?_⟩
    rintro (hk | hk)
    · obtain ⟨m, hm, hd⟩ := hacc.last
      exact List.mem_flatMap.2 ⟨m, hm, hd ▸ hk⟩
    · exact hacc.dropped hk
  refine ⟨hall, ?_, fun hc k => ?_⟩
  · rw [hg]
    exact Registry.nodup_keys _
  · have hnone : droppedKeys history = [] :=
      List.flatMap_eq_nil_iff.2 fun m hm => by rw [h.dropped_nil hc m hm]; rfl
    rw [hall, hnone]
    exact or_iff_left List.not_mem_nil

/-- An endpoint with a side flow, a tap, a router that merges on a channel of
one of its branches, and a scatter-gather. -/
theorem custody_nested :
    let program : List Step :=
      [.endpoint { handler := .bridge }
          [(.new .direct (some "side") [] [], [.handle .bridge])],
        .wireTap {} (.flow [.log .info none]),
        .route { strategy := .header "kind" } [("a", .flow [.handle .bridge]),
          ("b", .flow [.channel (.channel (.new .direct (some "b") [] []))])],
        .scatterGather {} (.recipients {} [(none, .flow [.handle .bridge])])]
    ∃ g history, Finished (fun _ => True) program g history ∧
      g.components.map (fun c => c.key.number) =
        [1, 3, 2, 4, 6, 15, 7, 8, 5, 9, 10, 12, 11, 14, 13, 16, 21, 22, 19, 23, 17,
          20, 18, 24] ∧
      ∀ k, k ∈ registeredKeys history ↔ k ∈ g.components.map Component.key := by
  intro program
  obtain ⟨g, w', hy, hkeys⟩ := exists_yields (m := do
      let b ← (Start.empty {}).make
      let b ← assembleSteps b program
      b.finish) (f := fun g => g.components.map fun c => c.key.number)
        (w := .start 1 1)
    (y := [1, 3, 2, 4, 6, 15, 7, 8, 5, 9, 10, 12, 11, 14, 13, 16, 21, 22, 19,
        23, 17, 20, 18, 24]) (by decide +kernel)
  obtain ⟨history, h⟩ : ∃ history, Finished (fun _ => True) program g history :=
    Finished.exists_of_run (by simp [Start.brought]) (by decide) hy
  exact ⟨g, history, h, hkeys, (custody h).2.2 (by decide)⟩

/-- What stands in a builder that is reached is registered at some moment. -/
theorem Shows.mem_registeredKeys {reached : List Step → Builder → Prop}
    {links : List Link} {ds : List Desk} {past history : List Moment}
    (h : Shows reached links ds history) (hlast : ∃ m ∈ past, m.desks = ds)
    {left : List Step} {b : Builder} (hr : reached left b) {k : ComponentKey}
    (hk : k ∈ b.components.map Component.key) :
    k ∈ registeredKeys (past ++ history) := by
  obtain ⟨desks, hdesks, d, hd, rfl⟩ := h.all left b hr
  have hstanding : k ∈ (standing desks).map Component.key := by
    refine mem_keys_standing.2 ⟨d, hd, ?_⟩
    rw [Desk.registered, List.map_append]
    exact List.mem_append_left _ hk
  rcases List.mem_cons.1 hdesks with rfl | hdesks
  · obtain ⟨m, hm, rfl⟩ := hlast
    exact List.mem_flatMap.2 ⟨m, List.mem_append_left _ hm, hstanding⟩
  · obtain ⟨m, hm, rfl⟩ := List.mem_map.1 hdesks
    exact List.mem_flatMap.2 ⟨m, List.mem_append_right _ hm, hstanding⟩

/-- A router whose only branch starts afresh: the channel that was registered
for the branch to start at stands in no registry in the end. -/
theorem custody_fresh :
    let program : List Step :=
      [.route { strategy := .header "kind" } [("a", .flow [.fresh])]]
    ∃ g history, Finished (fun _ => True) program g history ∧
      g.components.map (fun c => c.key.number) = [2, 3] ∧
      (⟨1⟩ : ComponentKey) ∈ registeredKeys history ∧
      (⟨1⟩ : ComponentKey) ∉ g.components.map Component.key := by
  intro program
  let route : Step := .route { strategy := .header "kind" } [("a", .flow [.fresh])]
  obtain ⟨g, w₃, hy, hkeys⟩ := exists_yields (m := do
      let b ← (Start.empty {}).make
      let b ← route.assemble b
      b.finish) (f := fun g => g.components.map fun c => c.key.number)
        (w := .start 1 1) (y := [2, 3])
    (by decide +kernel)
  obtain ⟨flows, _, hprepare, hseeds⟩ := exists_yields (m := do
      let b ← (Start.empty {}).make
      let p ← route.prepare b
      return p.2) (f := List.map fun flow => flow.1.key.number) (w := .start 1 1)
        (y := [1]) (by decide +kernel)
  simp only [yields_bind, yields_pure] at hy hprepare
  obtain ⟨b, w₁, hmake, b', w₂, hstep, hfinish⟩ := hy
  obtain ⟨_, _, hmake', ⟨b₁, _⟩, _, hp, rfl, rfl⟩ := hprepare
  obtain ⟨rfl, rfl⟩ := hmake.eq hmake'
  obtain ⟨⟨seed, steps⟩, rfl, hseed⟩ := List.map_eq_singleton_iff.1 hseeds
  obtain ⟨past, ht, hshows⟩ := Step.call_turns (s := route)
    (B := (· ∈ route.brought)) (fun c hc => hc) rfl hstep
  have hunderway :
      Underway (fun _ => True) ([] ++ [route]) b' w₂ ([.first b] ++ past) :=
    .call (.start (by simp [Start.brought]) hmake) rfl
      (by simp [show route.brought = [] by decide]) hstep ht hshows
  obtain ⟨last, hfinished, -⟩ := hunderway.exists_finished hfinish
  have hreached : route.Reaches b w₁ steps (b₁.branch seed) :=
    (Step.reaches_iff hp).2 ⟨[], (seed, steps), [], [], _, rfl, .nil _, .here _ _ _⟩
  have hkey : seed.key = ⟨1⟩ := congrArg ComponentKey.mk hseed
  have hregistered : (⟨1⟩ : ComponentKey) ∈ registeredKeys ([.first b] ++ past) :=
    hshows.mem_registeredKeys ⟨_, List.mem_singleton_self _, rfl⟩ hreached
      (by simp [Tidy.components_branch, Component.key, hkey])
  refine ⟨g, _, hfinished, hkeys, ?_, fun hk => ?_⟩
  · rw [registeredKeys, List.flatMap_append]
    exact List.mem_append_left _ hregistered
  · have hnumber := List.mem_map_of_mem (f := ComponentKey.number) hk
    rw [List.map_map, show (ComponentKey.number ∘ Component.key) = fun c =>
      c.key.number from rfl, hkeys] at hnumber
    revert hnumber
    decide

end FlowAssembly
