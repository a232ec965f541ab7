import FlowAssembly.Proofs.Finishing
import FlowAssembly.Proofs.Histories

/-!
# The order of flows

Which flows come out in order. A builder is followed from its start through
its steps (`Assembled`), while others work in the same workshop; a channel
that the caller brings is new to the flow each time. Then the outlook of the
flow is true of it, and its faults are those that the outlook tells.

Without fan-outs there are none. A fan-out puts two channels in a row exactly
if its first subscriber moved the channel of the fan-out behind a flow of its
own, and a router puts an endpoint ahead of its channel exactly if it merges
its branches on the channel of a fan-out, unless a flow within was out of
order already.
-/

namespace FlowAssembly

open Assembly Workshop

/-! ## Where flows start -/

/-- The channel that a flow starts at, if the caller brought it. -/
def Start.placed : Start → List ComponentKey
  | .channel c => [c.key]
  | .empty _ | .name _ | .source _ => []

/-- A builder as a flow starts with it, or a branch, with the keys that stand
in it or are set aside for it. -/
inductive Starts : Workshop → Builder → List ComponentKey → Workshop → Prop
  | flow (start : Start) {w w' : Workshop} {b : Builder} :
      Yields start.make w b w' → Starts w b start.placed w'
  | branch (parent : Builder) (c : Channel) (w : Workshop) :
      Starts w (parent.branch c) [c.key] w

theorem Builder.drawn_blank {b : Builder} {l : List Mark}
    (hm : b.registry.marks = l) (hw : Mark.Whole l) (hn : (Mark.keys l).Nodup)
    (hd : b.cursor.deferred = []) (hc : ∀ c, b.cursor.channel ≠ some (.channel c)) :
    b.Drawn ⟨l, .vacant, []⟩ where
  marks := by simp [hm, Sketch.marks, Tip.marks]
  taps := by rw [hd]; rfl
  current := Builder.currentKey?_eq_none.2 hc
  pending h := absurd rfl h
  sound := {
    base := hw
    behind := fun _ _ ht => by cases ht
    vacant := fun _ => rfl
    taps := fun _ hl => by cases hl
    distinct := by simpa [Sketch.keys, Sketch.marks, Tip.marks] using hn }

variable {w w' : Workshop} {b : Builder}

theorem Starts.drawn {keys : List ComponentKey} (h : Starts w b keys w') :
    ∃ s, b.Drawn s ∧ (s.outlook = .blank ∨ s.outlook = .seeded) ∧
      w.Spent keys w' s.keys := by
  cases h with
  | branch parent c w => exact ⟨_, parent.drawn_branch c, .inr rfl, .refl _ _⟩
  | flow start hy =>
      have hstarted := start.started hy
      generalize hnext : w'.nextComponent = n at hstarted
      cases hstarted with
      | bare hregistry _ _ hheld hchannel =>
          refine ⟨_,
            Builder.drawn_blank (by rw [hregistry]; rfl) Mark.whole_nil
              List.nodup_nil hheld hchannel, .inl rfl, fun k => ?_,
            fun k => Nat.le_of_eq (by rw [hnext])⟩
          rw [hnext]
          exact Nat.add_le_add_right (Nat.zero_le _) _
      | channel hs hregistry hcursor =>
          subst hs
          exact ⟨_, Builder.drawn_seeded hregistry hcursor, .inr rfl,
            (Spent.refl w' _).congr hnext.symm⟩
      | @source src hregistry hkey _ hcursor =>
          have hnew := Spent.next w
          rw [← hkey] at hnew
          refine ⟨⟨[.source src.key], .vacant, []⟩,
            Builder.drawn_blank ?_ ?_ ?_ (by rw [hcursor]) (by simp [hcursor]),
            .inl ?_, fun k => ?_, fun k => ?_⟩
          · rw [hregistry]
            exact Registry.marks_add_of_not_mem (by simp)
          · exact ⟨fun m hm => by cases hm; rfl, fun k hk => by cases hk⟩
          · exact by simp
          · simp [Sketch.outlook, Outlook.blank, Tip.landing, Tip.behind, Tip.marks,
              Mark.crowded, Mark.opens, Mark.isChannel, Mark.misplaced,
              Mark.misplacedFrom, Mark.reads?]
          · rw [hnext]
            exact Nat.le_trans (hnew.count k)
              (Nat.add_le_add_right (Nat.zero_le _) _)
          · rw [hnext]
            exact hnew.supply k

/-! ## Builders under assembly -/

/-- The keys of all that stands in a flow, and in the flows that it holds
back. -/
def Builder.keys (b : Builder) : List ComponentKey :=
  (b.registry :: b.cursor.deferred).flatMap fun r => r.components.map Component.key

/-- The channels that the caller brings with a step were made before, and each
is new to the flow. -/
structure Builder.Admits (b : Builder) (w : Workshop) (step : Step) : Prop where
  made : ∀ k ∈ step.placed, k.number < w.nextComponent
  once : step.placed.Nodup
  new : ∀ k ∈ step.placed, k ∉ b.keys

instance (b : Builder) (w : Workshop) (step : Step) : Decidable (b.Admits w step) :=
  decidable_of_iff ((∀ k ∈ step.placed, k.number < w.nextComponent) ∧
    step.placed.Nodup ∧ ∀ k ∈ step.placed, k ∉ b.keys)
    ⟨fun ⟨hm, ho, hn⟩ => ⟨hm, ho, hn⟩, fun h => ⟨h.made, h.once, h.new⟩⟩

/-- A builder that started and was worked on, by steps of the given kind, one
after the other. In between others may have made components. -/
inductive Assembled (kind : Step → Prop) : Builder → Workshop → Prop
  | start {b : Builder} {keys : List ComponentKey} {w w' : Workshop} :
    Starts w b keys w' → w.Room keys → Assembled kind b w'
  | step {b b' : Builder} {step : Step} {w w' : Workshop} : Assembled kind b w →
      kind step → step.isFresh = false → step.Contained → b.Admits w step →
      Yields (step.assemble b) w b' w' → Assembled kind b' w'
  | meanwhile {b : Builder} {w w' : Workshop} : Assembled kind b w →
      w.nextComponent ≤ w'.nextComponent → Assembled kind b w'

theorem Builder.Traced.keys_eq {b : Builder} {s : Sketch} (hd : b.Traced s) :
    b.keys = s.keys := by
  have hkeys : (b.registry :: b.cursor.deferred).flatMap (fun r =>
      r.components.map Component.key) =
      Mark.keys ((b.registry :: b.cursor.deferred).map Registry.marks).flatten := by
    rw [Mark.keys_flatten, List.flatMap_map]
    exact List.flatMap_congr fun r _ => r.keys_marks.symm
  rw [Builder.keys, hkeys, List.map_cons, hd.marks, hd.taps]
  rfl

theorem Builder.Drawn.keys_eq {b : Builder} {s : Sketch} (hd : b.Drawn s) :
    b.keys = s.keys :=
  hd.traced.keys_eq

theorem Builder.admits_of_room {b : Builder} {w : Workshop} {step : Step}
    (hr : w.Room (b.keys ++ step.placed)) :
    b.Admits w step := by
  obtain ⟨hn, hmade⟩ := room_iff.1 hr
  obtain ⟨-, honce, hapart⟩ := List.nodup_append.1 hn
  exact ⟨fun k hk => hmade k (List.mem_append_right _ hk), honce,
    fun k hk hin => hapart k hin k hk rfl⟩

theorem Builder.Admits.room {b : Builder} {s : Sketch} {w : Workshop} {step : Step}
    (h : b.Admits w step) (hd : b.Traced s) (hr : w.Room s.keys) :
    w.Room (s.keys ++ step.placed) := by
  obtain ⟨hn, hmade⟩ := room_iff.1 hr
  refine room_iff.2 ⟨List.nodup_append.2 ⟨hn, h.once, fun j hj k hk => ?_⟩,
    fun k hk => ?_⟩
  · rintro rfl
    exact h.new j hk (hd.keys_eq ▸ hj)
  · exact (List.mem_append.1 hk).elim (hmade k) (h.made k)

/-- A step does to a builder what is told by its text. -/
theorem Builder.Drawn.foreseen {b b' : Builder} {s : Sketch} {w w' : Workshop}
    {step : Step} (hd : b.Drawn s) (hr : w.Room s.keys)
    (hfresh : step.isFresh = false) (hc : step.Contained) (ha : b.Admits w step)
    (hy : Yields (step.assemble b) w b' w') :
    ∃ s', b'.Drawn s' ∧ w'.Room s'.keys ∧ s'.outlook = step.outlook s.outlook ∧
      (step.lingers = false → s'.taps = []) := by
  have hflows : ∀ flow ∈ step.flows, Foreseen flow ∧ Contained flow :=
    fun flow hm => ⟨foreseen_of_contained (hc.flow hm), hc.flow hm⟩
  have hroom := ha.room hd.traced hr
  obtain ⟨s', hdrawn, houtlook, hspent, hmoves⟩ :=
    Step.foreseen hfresh hflows hd hroom hy
  exact ⟨s', hdrawn, hroom.of_spent hspent, houtlook, hmoves.flushed⟩

namespace Assembled

variable {kind : Step → Prop}

/-- A builder under assembly has a sketch, and what every step of its kind
keeps of the outlook is true of it. -/
theorem drawn {P : Outlook → Prop} (hblank : P .blank) (hseeded : P .seeded)
    (hstep : ∀ step, kind step → ∀ o, P o → P (step.outlook o))
    (h : Assembled kind b w) :
    ∃ s, b.Drawn s ∧ w.Room s.keys ∧ P s.outlook := by
  induction h with
  | start hs hr =>
      obtain ⟨s, hdrawn, houtlook, hspent⟩ := hs.drawn
      refine ⟨s, hdrawn, hr.of_spent hspent, ?_⟩
      rcases houtlook with heq | heq
      · rw [heq]
        exact hblank
      · rw [heq]
        exact hseeded
  | step _ hk hfresh hc ha hy ih =>
      obtain ⟨s, hdrawn, hr, hp⟩ := ih
      obtain ⟨s', hdrawn', hr', houtlook, -⟩ := hdrawn.foreseen hr hfresh hc ha hy
      refine ⟨s', hdrawn', hr', ?_⟩
      rw [houtlook]
      exact hstep _ hk _ hp
  | meanwhile _ hle ih =>
      obtain ⟨s, hdrawn, hr, hp⟩ := ih
      exact ⟨s, hdrawn, hr.mono fun k => supply_mono hle k, hp⟩

/-- A program that is run in one go, on channels that were all made before. -/
theorem run {steps : List Step} (h : Assembled kind b w)
    (hk : ∀ step ∈ steps, kind step) (hc : Contained steps)
    (hr : w.Room (b.keys ++ placed steps)) {b' : Builder}
    (hy : Yields (assembleSteps b steps) w b' w') :
    Assembled kind b' w' := by
  induction steps generalizing b w with
  | nil =>
      obtain ⟨rfl, rfl⟩ := yields_pure.1 hy
      exact h
  | cons step rest ih =>
      obtain ⟨hfresh, hin, hc⟩ := contained_cons.1 hc
      obtain ⟨b₁, w₁, hfirst, hy⟩ := of_yields_assembleSteps_cons hy
      rw [List.forall_mem_cons] at hk
      rw [placed_cons, ← List.append_assoc] at hr
      have hadmits := Builder.admits_of_room hr.of_append
      obtain ⟨s, hd, -, -⟩ :=
        h.drawn (P := fun _ => True) trivial trivial fun _ _ _ _ => trivial
      obtain ⟨s₁, hd₁, -, hspent, -⟩ := Step.foreseen hfresh
        (fun flow hm => ⟨foreseen_of_contained (hin.flow hm), hin.flow hm⟩) hd
        (hd.keys_eq ▸ hr.of_append) hfirst
      refine ih (.step h hk.1 hfresh hin hadmits hfirst) hk.2 hc ?_ hy
      rw [hd₁.keys_eq]
      rw [hd.keys_eq] at hr
      exact hr.of_spent (hspent.append _)

/-- A program that is run from its start. -/
theorem program {start : Start} {steps : List Step}
    (hr : w.Room (start.placed ++ placed steps)) (hk : ∀ step ∈ steps, kind step)
    (hc : Contained steps)
    (hy : Yields (start.make >>= fun b => assembleSteps b steps) w b w') :
    Assembled kind b w' := by
  obtain ⟨b₀, w₁, hs, hy⟩ := yields_bind.1 hy
  obtain ⟨s, hd, -, hspent⟩ := (Starts.flow start hs).drawn
  refine (Assembled.start (.flow start hs) hr.of_append).run hk hc ?_ hy
  rw [hd.keys_eq]
  exact hr.of_spent (hspent.append _)

/-- A program and one more step are evaluated, with what is asked of the
builder before and after the step. -/
theorem exists_step (start : Start) (steps : List Step) (step : Step)
    (P : Builder → Workshop → Builder → Prop) [∀ b w b', Decidable (P b w b')]
    (hr : w.Room (start.placed ++ placed steps)) (hc : Contained steps)
    (h :
      ((start.make >>= (fun b => assembleSteps b steps) >>= fun b =>
          get >>= fun w =>
            (fun b' => decide (P b w b')) <$> step.assemble b).outcome
              w).1.toOption.map id = some true) :
    ∃ b w₁ b' w', Assembled (fun _ => True) b w₁ ∧
      Yields (step.assemble b) w₁ b' w' ∧ P b w₁ b' := by
  obtain ⟨_, w', hy, rfl⟩ := exists_yields h
  obtain ⟨b, w₁, hrun, hy⟩ := yields_bind.1 hy
  obtain ⟨_, _, hget, hy⟩ := yields_bind.1 hy
  obtain ⟨rfl, rfl⟩ := yields_get.1 hget
  obtain ⟨b', hy, hp⟩ := yields_map.1 hy
  exact ⟨b, _, b', w', .program hr (by simp) hc hrun, hy, of_decide_eq_true hp.symm⟩

end Assembled

/-! ## Programs without fan-outs -/

/-- Without fan-outs a flow is never refused for its order: however it is
finished, its channels stand apart, and every endpoint stands behind the
channel that it reads. -/
theorem finish_in_order (h : Assembled Step.FanFree b w) :
    (∀ cause, Fails b.finish w cause → cause.isOrder = false) ∧
    ∀ b₁ w₁, Yields b.closeImplicit w b₁ w₁ →
      Apart b₁.flushDeferred.registry.components ∧
      Ordered b₁.flushDeferred.registry.components := by
  obtain ⟨s, hd, hr, hclean⟩ :=
    h.drawn (P := Outlook.Clean) .blank .seeded fun _ hk _ => Step.clean_outlook hk
  constructor
  · intro cause hf
    obtain ⟨hadjacent, hinput⟩ := hd.outlook_of_fails hr hf
    rw [← Bool.not_eq_true]
    intro ho
    obtain ⟨_, _, c, -, hv, rfl⟩ := Builder.of_fails_finish hf ho
    rcases Registry.validate_eq_error hv with ⟨a, c, rfl, -⟩ | ⟨e, c, rfl, -⟩
    · have hcrowded := hadjacent a c rfl
      rw [hclean.crowded_close] at hcrowded
      cases hcrowded
    · have hmisplaced := hinput e c rfl
      rw [hclean.ordered] at hmisplaced
      cases hmisplaced
  · intro b₁ w₁ hy
    exact ⟨(hd.closed_apart_iff hr hy).2 hclean.crowded_close,
      (hd.closed_ordered_iff hr hy).2 hclean.ordered⟩

/-- A tapped channel of the caller's, a router that merges on a channel of one
of its branches, and a side flow. -/
theorem finish_in_order_nested :
    let own : Channel := ⟨⟨0⟩, some "own", .direct, [], false, none⟩
    let program : List Step :=
      [.handle .bridge, .channel (.channel (.existing own)), .log .info none,
        .route { strategy := .header "kind" } [("a", .flow [.handle .bridge]),
          ("b", .flow [.channel (.channel (.new .direct (some "b") [] []))])],
        .endpoint { handler := .bridge }
          [(.new .direct (some "side") [] [], [.handle .bridge])]]
    ∃ b w g w', Yields ((Start.empty {}).make >>= fun b => assembleSteps b program)
      (.start 1 1) b w ∧ Assembled Step.FanFree b w ∧ Yields b.finish w g w' ∧
      g.components.map (fun c => c.key.number) =
        [1, 2, 0, 10, 3, 4, 5, 7, 6, 9, 8, 11, 12, 14, 13, 15] ∧
      ∀ cause, Fails b.finish w cause → cause.isOrder = false := by
  intro own program
  obtain ⟨g, w', hy, hkeys⟩ := exists_yields
    (m := (Start.empty {}).make >>= (fun b => assembleSteps b program) >>=
      Builder.finish) (f := fun g => g.components.map fun c => c.key.number)
    (w := .start 1 1) (y := [1, 2, 0, 10, 3, 4, 5, 7, 6, 9, 8, 11, 12, 14, 13, 15])
    (by decide +kernel)
  obtain ⟨b, w, hrun, hfinish⟩ := yields_bind.1 hy
  have h : Assembled Step.FanFree b w :=
    .program (room_iff.2 (by decide)) (by decide) (by decide) hrun
  exact ⟨b, w, g, w', hrun, h, hfinish, hkeys, (finish_in_order h).1⟩

/-! ## Fan-outs -/

theorem Step.plain_of_fansOut {step : Step} (h : step.fansOut = true) :
    step.isFresh = false ∧ step.lingers = false := by
  cases step with
  | publishSubscribe _ _ | scatterGather _ _ => exact ⟨rfl, rfl⟩
  | channel _ | endpoint _ _ | wireTap _ _ | intercept _ | route _ _
  | routeToRecipients _ _ | withId _
  | withSession _ | fresh | faulty _ => cases h

/-- A fan-out over channels of its own keeps the channels of a flow apart
exactly if its first subscriber leaves the channel of the fan-out in its
place, no subscriber puts two channels in a row, and no flow held back for the
fan-out had two in a row. If it does, the flow is not refused for channels in
a row when it is finished next. -/
theorem apart_fanOut_iff {kind : Step → Prop} {b' : Builder} {step : Step}
    (h : Assembled kind b w) (ha : b.Admits w step) (hc : step.Contained)
    (hf : step.fansOut = true) (hy : Yields (step.assemble b) w b' w')
    (hapart : Apart b.registry.components) :
    (Apart b'.registry.components ↔
      (∀ r ∈ b.cursor.deferred, Apart r.components) ∧
      squeezes step.flows = false ∧
      ∀ flow ∈ step.flows, (stepsOutlook .seeded flow).close.crowded = false) ∧
    ∀ x y, Fails b'.finish w' (.flow (.adjacentChannels x y)) →
      ¬ Apart b'.registry.components := by
  obtain ⟨s, hd, hr, -⟩ :=
    h.drawn (P := fun _ => True) trivial trivial fun _ _ _ _ => trivial
  obtain ⟨hfresh, hlingers⟩ := Step.plain_of_fansOut hf
  obtain ⟨s', hd', hr', houtlook, hflushed⟩ := hd.foreseen hr hfresh hc ha hy
  have hiff := hd'.apart_iff_of_flushed (hflushed hlingers)
  constructor
  · rw [hiff, houtlook, Step.crowded_of_fansOut hf, Bool.or_eq_false_iff,
      Bool.or_eq_false_iff, hd.apart_iff, List.any_eq_false]
    simp only [hapart, true_and, Bool.not_eq_true]
  · intro x y hfails
    rw [hiff, (hd'.outlook_of_fails hr' hfails).1 x y rfl]
    simp

/-- Subscribers that read the channel before they do anything else, or come
after one that does. -/
theorem apart_fanOut_two_subscribers :
    let own : Channel :=
      ⟨⟨0⟩, some "own", .publishSubscribe false false, [], false, none⟩
    let fanOut : Step := .publishSubscribe { channel := some (.existing own) }
      [[.handle .bridge, .log .info none], [.log .info none]]
    ∃ b w b' w', Assembled (fun _ => True) b w ∧ b.Admits w fanOut ∧
      Yields (fanOut.assemble b) w b' w' ∧ Apart b.registry.components ∧
      Apart b'.registry.components := by
  intro own fanOut
  obtain ⟨b, w, b', w', h, hy, ha, hheld, hapart⟩ := Assembled.exists_step
    (w := .start 1 1) (.empty {}) [.handle .bridge] fanOut
    (fun b w _ => b.Admits w fanOut ∧ b.cursor.deferred.isEmpty ∧
      Apart b.registry.components) (room_iff.2 (by decide)) (by decide)
    (by decide +kernel)
  refine ⟨b, w, b', w', h, ha, hy, hapart,
    (apart_fanOut_iff h ha (by decide) rfl hy hapart).1.2 ⟨?_, ?_, ?_⟩⟩
  · rw [List.isEmpty_iff.1 hheld]
    exact nofun
  · decide
  · decide

/-- A subscriber that only taps the channel moves it behind the tap; the flow
of the tap ends up right behind it. -/
theorem apart_fanOut_tapped :
    let fanOut : Step := .publishSubscribe {} [[.log .info none]]
    ∃ b w b' w', Assembled (fun _ => True) b w ∧ b.Admits w fanOut ∧
      fanOut.Contained ∧ fanOut.fansOut = true ∧
      Yields (fanOut.assemble b) w b' w' ∧ b.cursor.deferred.isEmpty ∧
      Apart b.registry.components ∧ ¬ Apart b'.registry.components := by
  intro fanOut
  obtain ⟨b, w, b', w', h, hy, ha, hheld, hapart, hfault⟩ := Assembled.exists_step
    (w := .start 1 1) (.empty {}) [] fanOut
    (fun b w b' => b.Admits w fanOut ∧ b.cursor.deferred.isEmpty ∧
      Apart b.registry.components ∧ ¬ Apart b'.registry.components)
    (room_iff.2 (by decide)) (by decide) (by decide +kernel)
  exact ⟨b, w, b', w', h, ha, by decide, rfl, hy, hheld, hapart, hfault⟩

/-! ## Routers -/

theorem Step.plain_of_routes {step : Step} (h : step.routes = true) :
    step.isFresh = false ∧ step.lingers = false := by
  cases step with
  | route _ _ | routeToRecipients _ _ => exact ⟨rfl, rfl⟩
  | channel _ | endpoint _ _ | wireTap _ _ | intercept _ | publishSubscribe _ _
  | scatterGather _ _ | withId _
  | withSession _ | fresh | faulty _ => cases h

/-- A router keeps every endpoint behind its channel exactly if it does not
merge its branches on the channel of a fan-out, no branch puts an endpoint
ahead of its channel, and no flow held back for the router had one so. If it
does, the flow is not refused for such an endpoint when it is finished
next. -/
theorem ordered_route_iff {kind : Step → Prop} {b' : Builder} {step : Step}
    (h : Assembled kind b w) (ha : b.Admits w step) (hc : step.Contained)
    (hf : step.routes = true) (hy : Yields (step.assemble b) w b' w')
    (hordered : Ordered b.registry.components) :
    (Ordered b'.registry.components ↔
      (∀ r ∈ b.cursor.deferred, Ordered r.components) ∧
      mergesShared step.flows = false ∧
      ∀ flow ∈ step.flows, (stepsOutlook .seeded flow).misplaced = false) ∧
    ∀ e c, Fails b'.finish w' (.flow (.inputNotRegistered e c)) →
      ¬ Ordered b'.registry.components := by
  obtain ⟨s, hd, hr, -⟩ :=
    h.drawn (P := fun _ => True) trivial trivial fun _ _ _ _ => trivial
  obtain ⟨hfresh, hlingers⟩ := Step.plain_of_routes hf
  obtain ⟨s', hd', hr', houtlook, hflushed⟩ := hd.foreseen hr hfresh hc ha hy
  have hiff := hd'.ordered_iff_of_flushed (hflushed hlingers)
  constructor
  · rw [hiff, houtlook, Step.misplaced_of_routes hf, Bool.or_eq_false_iff,
      Bool.or_eq_false_iff, hd.ordered_iff, List.any_eq_false]
    simp only [hordered, true_and, Bool.not_eq_true]
  · intro e c hfails
    rw [hiff, (hd'.outlook_of_fails hr' hfails).2 e c rfl]
    simp

/-- Branches that end on a channel of the caller's, on an endpoint and on a
channel made for a tap. -/
theorem ordered_route_three_branches :
    let own : Channel := ⟨⟨0⟩, some "own", .direct, [], false, none⟩
    let router : Step := .route { strategy := .header "kind" }
      [("a", .flow [.handle .bridge]),
        ("b", .flow [.handle .bridge, .channel (.channel (.existing own))]),
        ("c", .flow [.handle .bridge, .log .info none])]
    ∃ b w b' w', Assembled (fun _ => True) b w ∧ b.Admits w router ∧
      Yields (router.assemble b) w b' w' ∧ Ordered b.registry.components ∧
      Ordered b'.registry.components := by
  intro own router
  obtain ⟨b, w, b', w', h, hy, ha, hheld, hordered⟩ := Assembled.exists_step
    (w := .start 1 1) (.empty {}) [.handle .bridge] router
    (fun b w _ => b.Admits w router ∧ b.cursor.deferred.isEmpty ∧
      Ordered b.registry.components) (room_iff.2 (by decide)) (by decide)
    (by decide +kernel)
  refine ⟨b, w, b', w', h, ha, hy, hordered,
    (ordered_route_iff h ha (by decide) rfl hy hordered).1.2 ⟨?_, ?_, ?_⟩⟩
  · rw [List.isEmpty_iff.1 hheld]
    exact nofun
  · decide
  · decide

/-- A branch that ends on the channel of a fan-out: the channel is moved
behind its subscriber. -/
theorem ordered_route_merged_fanOut :
    let router : Step := .route { strategy := .header "h" }
      [("a", .flow [.publishSubscribe {} [[.handle .bridge]]])]
    ∃ b w b' w', Assembled (fun _ => True) b w ∧ b.Admits w router ∧
      router.Contained ∧ router.routes = true ∧
      Yields (router.assemble b) w b' w' ∧
      b.cursor.deferred.isEmpty ∧ Ordered b.registry.components ∧
      ¬ Ordered b'.registry.components := by
  intro router
  obtain ⟨b, w, b', w', h, hy, ha, hheld, hordered, hfault⟩ := Assembled.exists_step
    (w := .start 1 1) (.empty {}) [] router
    (fun b w b' => b.Admits w router ∧ b.cursor.deferred.isEmpty ∧
      Ordered b.registry.components ∧ ¬ Ordered b'.registry.components)
    (room_iff.2 (by decide)) (by decide) (by decide +kernel)
  exact ⟨b, w, b', w', h, ha, by decide, rfl, hy, hheld, hordered, hfault⟩

end FlowAssembly
