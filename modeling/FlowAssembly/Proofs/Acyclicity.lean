import FlowAssembly.Proofs.Accounts
import FlowAssembly.Proofs.ChartedSteps
import FlowAssembly.Proofs.Cyclicity
import FlowAssembly.Proofs.Interceptions

/-!
# Flows without a cycle

A flow has no cycle if its program mentions no channel and no name twice. Its
points stand in an order in which every edge leads forward, and none of them
stands there twice, so the place of a point goes up along each edge.

The edges of a finished flow lead between texts. A text tells its point only
if no two points show up under the same text. Names are the caller's to
choose, and so are labels and references, so this is asked of the flow
(`Legible`).
-/

namespace FlowAssembly

open Assembly Relation Workshop

variable {taps : Interceptions} {order : List Point} {b b' : Builder}
  {g : FlowGraph} {w w₁ w' : Workshop}

/-! ## From start to finish -/

theorem Start.places_make {s : Start} (hy : Yields s.make w b w') :
    ∃ points, w.Places (s.mentions taps) points points w' ∧
      b.Charted taps points := by
  match s with
  | .empty config =>
      simp only [make, Builder.withConfig, yields_bind, yields_newFlowId,
        yields_newSession, yields_pure] at hy
      obtain ⟨_, _, ⟨rfl, rfl⟩, _, _, ⟨rfl, rfl⟩, rfl, rfl⟩ := hy
      refine ⟨[], .idle rfl rfl,
        ⟨fun x hx => ?_, fun source hs => ?_, fun output ho => ?_⟩⟩
      · cases hx
      · cases hs
      · cases ho
  | .channel c =>
      simp only [make, Builder.fromChannel, Builder.new, Builder.withConfig,
        yields_bind, yields_newFlowId, yields_newSession, yields_pure] at hy
      obtain ⟨_, _, ⟨_, _, ⟨rfl, rfl⟩, _, _, ⟨rfl, rfl⟩, rfl, rfl⟩, rfl, rfl⟩ := hy
      refine ⟨c.mentions taps, .idle rfl rfl,
        ⟨fun x hx => ?_, fun source hs target ht => ?_, fun output ho => ?_⟩⟩
      · obtain rfl := List.mem_singleton.1 hx
        exact c.charted_mentions taps
      · obtain rfl := Option.some.inj hs
        obtain rfl := Option.some.inj ht
        exact ⟨c.charted_mentions taps, rfl⟩
      · cases ho
  | .name text =>
      simp only [make, Builder.fromChannelName, Builder.new, Builder.withConfig,
        yields_bind, yields_newFlowId, yields_newSession, yields_pure] at hy
      obtain ⟨_, _, ⟨_, _, ⟨rfl, rfl⟩, _, _, ⟨rfl, rfl⟩, rfl, rfl⟩, rfl, rfl⟩ := hy
      refine ⟨[.name text], .idle rfl rfl,
        ⟨fun x hx => ?_, fun source hs target ht => ?_, fun output ho => ?_⟩⟩
      · cases hx
      · obtain rfl := Option.some.inj hs
        obtain rfl := Option.some.inj ht
        exact ⟨List.mem_singleton_self _, rfl⟩
      · cases ho
  | .source spec =>
      simp only [make, Builder.fromSource, Builder.new, Builder.withConfig,
        yields_bind, yields_newFlowId, yields_newSession, yields_newComponentKey,
        yields_pure] at hy
      obtain ⟨_, _, ⟨_, _, ⟨rfl, rfl⟩, _, _, ⟨rfl, rfl⟩, rfl, rfl⟩, _, _,
        ⟨rfl, rfl⟩, rfl, rfl⟩ := hy
      refine ⟨[.key ⟨w.nextComponent⟩], .made rfl rfl,
        ⟨fun x hx => ?_, fun source hs => ?_, fun output ho => ?_⟩⟩
      · obtain rfl := List.mem_singleton.1 hx
        exact ⟨List.mem_singleton_self _, fun link hl => by cases hl⟩
      · cases hs
      · obtain rfl := Option.some.inj ho
        exact List.mem_singleton_self _

theorem Builder.Charted.finish (h : b.Charted taps order)
    (hblank : taps.Blank w.nextComponent) (hy : Yields b.finish w g w') :
    ∃ more, w.Places [] more [] w' ∧
      ∀ x ∈ g.components, x.Charted taps (order ++ more) := by
  obtain ⟨b₁, hclose, -, rfl⟩ := Builder.of_yields_finish hy
  have hsub : ∀ x ∈ b₁.flushDeferred.toGraph.components, x ∈ b₁.components :=
    fun x hx =>
      b₁.condenses_flushDeferred.subperm.subset
        (b₁.flushDeferred.components_toGraph ▸ hx)
  rcases Builder.of_yields_closeImplicit hclose
    with ⟨rfl, rfl, -⟩ | ⟨c, -, -, hbridge⟩
  · exact ⟨[], .idle rfl rfl,
      fun x hx => (h.components x (hsub x hx)).mono (List.sublist_append_left _ _)⟩
  · obtain ⟨more, hplaces, -, hcharted⟩ := h.bridge hblank hbridge
    exact ⟨more, hplaces, fun x hx => hcharted.components x (hsub x hx)⟩

/-- All that stands in a finished flow is in order. -/
theorem charted_run {start : Start} {steps : List Step}
    (hblank : taps.Blank w.nextComponent)
    (hy : Yields (do let b ← start.make; let b ← assembleSteps b steps; b.finish)
      w g w') :
    ∃ order, w.Places (start.mentions taps ++ mentions taps steps) order order w' ∧
      ∀ x ∈ g.components, x.Charted taps order := by
  simp only [yields_bind] at hy
  obtain ⟨b, w₁, hmake, b', w₂, hsteps, hfinish⟩ := hy
  obtain ⟨points, hstart, hb⟩ := start.places_make hmake
  have hblank₁ := hblank.mono hstart.le
  obtain ⟨more, hrun, hb'⟩ := charts steps hblank₁ hb hsteps
  obtain ⟨last, hlast, hg⟩ := hb'.finish (hblank₁.mono hrun.le) hfinish
  have hall :=
    ((hstart.mono (List.sublist_append_left points more)).trans hrun).mono
    (List.sublist_append_left (points ++ more) last)
  refine ⟨points ++ more ++ last, ?_, hg⟩
  have hplaces := hall.trans (hlast.mono (List.nil_sublist _))
  rwa [List.append_nil] at hplaces

/-- What is in order with the taps that there were is so with those that were
attached since. -/
theorem Component.Charted.attached {x : Component} {mentioned placed : List Point}
    (h : x.Charted w.interceptors order) (hp : w.Places mentioned placed order w') :
    x.Charted w'.interceptors order := by
  refine ⟨h.key, ?_⟩
  have hlinks := h.links
  cases x with
  | endpoint e => exact hlinks
  | source s => exact hlinks
  | channel c =>
      obtain ⟨more, ha, hmore⟩ := hp.taps
      intro link hl
      rw [Component.links, interceptors_append ha, List.filterMap_append,
        List.map_append] at hl
      rcases List.mem_append.1 hl with hl | hl
      · exact hlinks link hl
      · obtain ⟨t, ht, rfl⟩ := List.mem_map.1 hl
        obtain ⟨i, hi, htap⟩ := List.mem_filterMap.1 ht
        obtain ⟨⟨k, i'⟩, hm, hattached⟩ := List.mem_filterMap.1 hi
        dsimp only at hattached
        split at hattached
        · next hk =>
            obtain rfl := Option.some.inj hattached
            exact hk ▸ hmore _ hm t htap
        · cases hattached

/-! ## Points and texts -/

/-- The edges of a component as pairs of ends, given what stands for the
component and for a target. -/
def Component.pairs {α : Type} (taps : Interceptions) (own : α)
    (stands : Target → α) : Component → List (α × α)
  | .channel c =>
      ((taps c.key).filterMap Interceptor.tapTarget?).map fun t => (own, stands t)
  | .endpoint e =>
      (stands e.input, own) :: (e.output.toList.map fun t => (own, stands t)) ++
        e.handler.routeTargets.map fun t => (own, stands t)
  | .source s => s.output.toList.map fun t => (own, stands t)

theorem Component.map_pairs {α β : Type} (f : α → β) (taps : Interceptions)
    (own : α) (stands : Target → α) (x : Component) :
    (x.pairs taps own stands).map (Prod.map f f) = x.pairs taps (f own) fun t =>
      f (stands t) := by
  cases x <;> simp [pairs, Function.comp_def]

theorem Component.links_eq (taps : Interceptions) (x : Component) :
    x.links taps = x.pairs taps (.key x.key) Target.point := by
  cases x <;> rfl

namespace FlowGraph

theorem map_entryEdges (g : FlowGraph) (taps : Interceptions) (e : GraphEntry) :
    (g.entryEdges taps e).map (fun edge => (edge.source, edge.target)) =
      e.component.pairs taps e.name g.targetName := by
  unfold entryEdges
  cases e.component <;> simp [Component.pairs, Function.comp_def]

/-- The edges of a flow as pairs of points, each with the text that it shows
up under. -/
def lines (g : FlowGraph) (taps : Interceptions) :
    List ((Point × String) × (Point × String)) :=
  g.entries.flatMap fun e =>
    e.component.pairs taps (.key e.component.key, e.name) fun t =>
      (t.point, g.targetName t)

/-- What stands at an end of an edge, with its text. -/
def ends (g : FlowGraph) (taps : Interceptions) : List (Point × String) :=
  (g.lines taps).flatMap fun line => [line.1, line.2]

/-- No two components, unregistered channels or names show up in the edges
under the same text. -/
def Legible (g : FlowGraph) (taps : Interceptions) : Prop :=
  ∀ u ∈ g.ends taps, ∀ v ∈ g.ends taps, u.2 = v.2 → u.1 = v.1

instance (g : FlowGraph) (taps : Interceptions) : Decidable (g.Legible taps) :=
  inferInstanceAs
    (Decidable (∀ u ∈ g.ends taps, ∀ v ∈ g.ends taps, u.2 = v.2 → u.1 = v.1))

theorem mem_ends {line : (Point × String) × (Point × String)}
    (h : line ∈ g.lines taps) :
    line.1 ∈ g.ends taps ∧ line.2 ∈ g.ends taps :=
  ⟨List.mem_flatMap.2 ⟨line, h, List.mem_cons_self⟩,
    List.mem_flatMap.2 ⟨line, h, List.mem_cons_of_mem _ List.mem_cons_self⟩⟩

theorem Leads.exists_line {s t : String} (h : g.Leads taps s t) :
    ∃ line ∈ g.lines taps, line.1.2 = s ∧ line.2.2 = t := by
  obtain ⟨edge, hedge, rfl, rfl⟩ := h
  obtain ⟨e, he, hedge⟩ := List.mem_flatMap.1 hedge
  have hpair := List.mem_map_of_mem
    (f := fun edge : GraphEdge => (edge.source, edge.target)) hedge
  rw [map_entryEdges,
    ← Component.map_pairs Prod.snd taps (Point.key e.component.key, e.name) fun t =>
      (t.point, g.targetName t)] at hpair
  obtain ⟨line, hline, heq⟩ := List.mem_map.1 hpair
  exact ⟨line, List.mem_flatMap.2 ⟨e, he, hline⟩, congrArg Prod.fst heq,
    congrArg Prod.snd heq⟩

/-- Where all that stands in a flow is in order, its edges lead forward. -/
theorem precedes_of_line (h : ∀ x ∈ g.components, x.Charted taps order)
    {line : (Point × String) × (Point × String)} (hline : line ∈ g.lines taps) :
    Precedes order line.1.1 line.2.1 := by
  obtain ⟨e, he, hline⟩ := List.mem_flatMap.1 hline
  refine (h e.component (List.mem_map_of_mem he)).links (line.1.1, line.2.1) ?_
  rw [Component.links_eq,
    ← Component.map_pairs Prod.fst taps (Point.key e.component.key, e.name) fun t =>
      (t.point, g.targetName t)]
  exact List.mem_map_of_mem (f := Prod.map Prod.fst Prod.fst) hline

/-- A walk leads up in an order that holds no point twice. -/
theorem rises_of_walk {s t : String} (hn : order.Nodup)
    (h : ∀ x ∈ g.components, x.Charted taps order) (hl : g.Legible taps)
    (hwalk : TransGen (g.Leads taps) s t) :
    ∃ u v, (u, s) ∈ g.ends taps ∧ (v, t) ∈ g.ends taps ∧
      order.idxOf u < order.idxOf v := by
  induction hwalk with
  | single hedge =>
      obtain ⟨line, hline, rfl, rfl⟩ := hedge.exists_line
      exact ⟨_, _, (mem_ends hline).1, (mem_ends hline).2,
        (precedes_of_line h hline).idxOf_lt hn⟩
  | tail _ hedge ih =>
      obtain ⟨u, v, hu, hv, hlt⟩ := ih
      obtain ⟨line, hline, rfl, rfl⟩ := hedge.exists_line
      have hsame : v = line.1.1 := hl _ hv _ (mem_ends hline).1 rfl
      refine ⟨u, _, hu, (mem_ends hline).2, Nat.lt_trans hlt ?_⟩
      rw [hsame]
      exact (precedes_of_line h hline).idxOf_lt hn

end FlowGraph

/-- A flow whose program mentions nothing twice has no cycle, if its edges
tell its points apart. What the program mentions was made before, and so was
whatever interceptors were attached to before. -/
theorem acyclic_of_fresh {start : Start} {steps : List Step}
    (hpast : ∀ a ∈ w.attached, a.1.number < w.nextComponent)
    (hgiven : ∀ k,
      Point.key k ∈
        start.mentions w.interceptors ++ mentions w.interceptors steps →
      k.number < w.nextComponent)
    (honce : (start.mentions w.interceptors ++ mentions w.interceptors steps).Nodup)
    (hy : Yields (do let b ← start.make; let b ← assembleSteps b steps; b.finish)
      w g w')
    (hlegible : g.Legible w'.interceptors) :
    (∀ text, ¬ TransGen (g.Leads w'.interceptors) text text) ∧
    (g.toDigraph w'.interceptors).isCyclic = false := by
  have hblank : w.interceptors.Blank w.nextComponent := fun k hk => by
    refine List.filterMap_eq_nil_iff.2 fun a ha => if_neg fun heq => ?_
    have hlt := hpast a ha
    rw [heq] at hlt
    omega
  obtain ⟨order, hplaces, hcharted⟩ := charted_run hblank hy
  have hn : order.Nodup := hplaces.nodup honce hgiven
  have hnone : ∀ text, ¬ TransGen (g.Leads w'.interceptors) text text := by
    intro text hwalk
    obtain ⟨u, v, hu, hv, hlt⟩ :=
      FlowGraph.rises_of_walk hn (fun x hx => (hcharted x hx).attached hplaces)
        hlegible hwalk
    obtain rfl : u = v := hlegible _ hu _ hv rfl
    exact Nat.lt_irrefl _ hlt
  refine ⟨hnone, Bool.eq_false_iff.2 fun hcyclic => ?_⟩
  obtain ⟨text, hwalk⟩ := (g.isCyclic_toDigraph_iff w'.interceptors).1 hcyclic
  exact hnone text hwalk

/-- A channel with a tap to a name, a tap that is held back, a side flow that
its handler leads to, a router whose branches meet on a channel that one of
them ended on, and a fan-out: two branches of the flow come together there,
and none comes back. -/
theorem acyclic_of_fresh_merged :
    let channel (number : Nat) (id : String) : Channel :=
      ⟨⟨number⟩, some id, .direct, [], false, none⟩
    let given (number : Nat) (id : String) : ChannelPlan :=
      .existing (channel number id)
    let gateway : HandlerPlan :=
      .custom "gateway" true false [.channel (given 1 "side")]
    let steps : List Step :=
      [.wireTap {} (.flow [.log .info none]),
        .endpoint { handler := gateway } [(given 1 "side", [.handle .bridge])],
        .route { strategy := .header "kind" }
          [("a", .flow [.handle .bridge, .channel (.channel (given 2 "done"))]),
            ("b", .flow [.handle .bridge]), ("c", .target (.named "log"))],
        .publishSubscribe { channel := some (given 3 "fan") }
          [[.handle .bridge], [.handle .bridge]],
        .handle .bridge]
    let start : Start := .channel (channel 0 "orders")
    let w : Workshop := { Workshop.start 4 1 with
      attached :=
        [(⟨0⟩, .wireTap
          { target := .named "audit", selector := none, timeout := none })] }
    ∃ g w',
      Yields (do let b ← start.make; let b ← assembleSteps b steps; b.finish)
        w g w' ∧
      start.mentions w.interceptors ++ mentions w.interceptors steps =
        [.key ⟨0⟩, .name "audit", .key ⟨1⟩, .name "log", .key ⟨2⟩, .key ⟨3⟩] ∧
      g.Legible w'.interceptors ∧ (g.edges w'.interceptors).length = 22 ∧
      (∀ text, ¬ TransGen (g.Leads w'.interceptors) text text) ∧
      (g.toDigraph w'.interceptors).isCyclic = false := by
  intro channel given gateway steps start w
  obtain ⟨answer, w', hy, hall⟩ := exists_yields (m := do
      let b ← start.make
      let b ← assembleSteps b steps
      let g ← b.finish
      return (g, ← get))
    (f := fun (g, w) =>
      (decide (g.Legible w.interceptors), (g.edges w.interceptors).length)) (w := w)
    (y := (true, 22)) (by decide +kernel)
  simp only [yields_bind, yields_get, yields_pure, Prod.mk.injEq] at hy hall
  obtain ⟨b, w₁, hmake, b', w₂, hsteps, g, _, hfinish, _, _, ⟨rfl, rfl⟩,
    rfl, rfl⟩ := hy
  have hrun :
      Yields (do let b ← start.make; let b ← assembleSteps b steps; b.finish)
        w g w' :=
    yields_bind.2 ⟨b, w₁, hmake, yields_bind.2 ⟨b', w₂, hsteps, hfinish⟩⟩
  have hmentions : start.mentions w.interceptors ++ mentions w.interceptors steps =
      [.key ⟨0⟩, .name "audit", .key ⟨1⟩, .name "log", .key ⟨2⟩, .key ⟨3⟩] := by
    decide +kernel
  have hlegible := of_decide_eq_true hall.1
  refine ⟨g, w', hrun, hmentions, hlegible, hall.2,
    acyclic_of_fresh (by decide) (fun k hk => ?_) ?_ hrun hlegible⟩
  · rw [hmentions] at hk
    simp only [List.mem_cons, Point.key.injEq, reduceCtorEq, List.not_mem_nil,
      or_false, false_or] at hk
    obtain rfl | rfl | rfl | rfl := hk <;> decide
  · rw [hmentions]
    decide

/-- A name that is mentioned twice may lead back: the flow reads from it and
routes to it. -/
example :
    ((do
      let b ← Start.make (.name "loop")
      let b ← assembleSteps b
        [.route { strategy := .header "kind" } [("again", .target (.named "loop"))]]
      let g ← b.finish
      return (g.toDigraph fun _ => []).isCyclic).outcome
        (.start 0 1)).1.toOption = some true := by
  decide +kernel

end FlowAssembly
