import FlowAssembly.Proofs.FlowOrder
import FlowAssembly.Proofs.Layouts

/-!
# Side flows and tapped flows in a finished flow

Without fan-outs, every call puts its flows where they are asked to be, at any
depth of nesting (`laid_of_fanFree`), and later calls do not break up what is
in one piece. So once a flow is finished, all that was called on its builder,
or on one nested in a call, is still in its place, and the same goes for each
flow in between.

The builder is followed through the calls that its caller makes, while others
work in the same workshop (`Proceeds`).
-/

namespace FlowAssembly

open Assembly Workshop

/-! ## All programs -/

/-- Programs without fan-outs lay out what they hold, at any depth of
nesting. -/
theorem laid_of_fanFree {steps : List Step}
    (h : ∀ t ∈ stepsWithin steps, t.fansOut = false) : Laid steps := by
  revert h
  refine Step.flow_induction (P := fun s => s.FanFree → s.Laid)
    (Q := fun steps => (∀ t ∈ stepsWithin steps, t.fansOut = false) → Laid steps)
    ?step ?nil ?cons steps
  case step =>
    intro s ih hs
    exact Step.laid (hs s List.mem_cons_self) fun flow hm => ih flow hm fun t ht =>
      hs t (List.mem_cons_of_mem s (Step.mem_inner hm ht))
  case nil =>
    intro _ b b' s w w' hd hr hy
    obtain ⟨rfl, rfl⟩ := yields_pure.1 hy
    refine ⟨s, hd, ?_, fun _ => .refl s, fun call hm => absurd hm not_makes_nil⟩
    rw [placed, stepsWithin, List.flatMap_nil, List.append_nil]
    exact .refl _ _
  case cons =>
    intro step rest hstep hrest hall b b' s w w' hd hr hy
    rw [stepsWithin] at hall
    obtain ⟨b₁, w₁, hfirst, hy⟩ := of_yields_assembleSteps_cons hy
    rw [placed_cons, ← List.append_assoc] at hr ⊢
    obtain ⟨s₁, hlaid⟩ :=
      hstep (fun t ht => hall t (List.mem_append_left _ ht)) hd hr.of_append hfirst
    have hspent := hlaid.spent.append (placed rest)
    obtain ⟨s', hd', hspent', hkeeps, hcalls⟩ :=
      hrest (fun t ht => hall t (List.mem_append_right _ ht)) hlaid.stands
        (hr.of_spent hspent) hy
    refine ⟨s', hd', hspent.trans hspent', fun hfresh => ?_, fun call hm => ?_⟩
    · rw [List.forall_mem_cons] at hfresh
      exact (hlaid.keeps hfresh.1).trans (hkeeps hfresh.2)
    · rcases makes_cons hfirst hm with ⟨hm, hfresh⟩ | hm
      · exact ⟨(hlaid.calls call hm).1.mono (hkeeps hfresh),
          (hlaid.calls call hm).2⟩
      · exact hcalls call hm

theorem Step.laid_of_fanFree {s : Step} (h : s.FanFree) : s.Laid :=
  Step.laid (h s List.mem_cons_self) fun _ hm =>
    FlowAssembly.laid_of_fanFree fun t ht =>
      h t (List.mem_cons_of_mem s (Step.mem_inner hm ht))

/-! ## Builders under assembly -/

/-- The builder is worked on by calls without fan-outs, which are logged. A
channel that the caller brings is new to the flow each time. In between others
may make components. -/
inductive Proceeds (b₀ : Builder) (w₀ : Workshop) :
    List Call → Builder → Workshop → Prop
  | start : Proceeds b₀ w₀ [] b₀ w₀
  | call {calls : List Call} {s : Step} {b b' : Builder} {w w' : Workshop} :
      Proceeds b₀ w₀ calls b w → s.FanFree → s.isFresh = false → b.Admits w s →
      Yields (s.assemble b) w b' w' →
      Proceeds b₀ w₀ (calls ++ [⟨s, b, w, b'⟩]) b' w'
  | meanwhile {calls : List Call} {b : Builder} {w w' : Workshop} :
      Proceeds b₀ w₀ calls b w → w.nextComponent ≤ w'.nextComponent →
      Proceeds b₀ w₀ calls b w'

/-- The call is the given one, or it was made on a builder nested in that. -/
def Call.Makes (call inner : Call) : Prop :=
  FlowAssembly.Makes [call.step] call.builder call.workshop inner

section

variable {start : Start} {steps : List Step} {calls : List Call}
  {b₀ b b₁ b' : Builder} {s₀ s : Sketch} {g : FlowGraph} {w₀ w w₁ w' : Workshop}

theorem Builder.Started.deferred_eq {n n' : Nat} (h : b.Started start n n') :
    b.cursor.deferred = [] := by
  cases h with
  | bare _ _ _ hd _ => exact hd
  | channel _ _ hc | source _ _ _ hc => rw [hc]

theorem Start.stands (hs : Yields start.make w b w') :
    ∃ s, b.Stands s w' ∧ w.Spent start.placed w' s.keys := by
  obtain ⟨s, hdrawn, houtlook, hspent⟩ := (Starts.flow start hs).drawn
  have hheld := (start.started hs).deferred_eq
  have hlanding : s.tip.landing = .unset ∨ s.tip.landing = .bare :=
    houtlook.imp (congrArg Outlook.landing) (congrArg Outlook.landing)
  refine ⟨s, ⟨hdrawn.traced, fun k l ht => ?_, hheld ▸ .begun hs⟩, hspent⟩
  rw [ht] at hlanding
  rcases hlanding with h | h <;> cases h

/-- What is called on a builder under assembly, at any depth, is in its
place. -/
theorem Proceeds.stands (h : Proceeds b₀ w₀ calls b w) (hd : b₀.Stands s₀ w₀)
    (hr : w₀.Room s₀.keys) :
    ∃ s, b.Stands s w ∧ w.Room s.keys ∧
      ∀ call ∈ calls, ∀ inner, call.Makes inner → inner.Placed s.Holds ∧
        inner.Levels := by
  induction h with
  | start => exact ⟨s₀, hd, hr, List.forall_mem_nil _⟩
  | @call calls step b b' w w' _ hfree hfresh ha hy ih =>
      obtain ⟨s, hstands, hroom, hcalls⟩ := ih
      have hroom := ha.room hstands.traced hroom
      obtain ⟨s', hlaid⟩ := Step.laid_of_fanFree hfree hstands hroom hy
      refine ⟨s', hlaid.stands, hroom.of_spent hlaid.spent, ?_⟩
      rw [List.forall_mem_append, List.forall_mem_singleton]
      refine ⟨fun call hm inner hin => ?_, hlaid.calls⟩
      exact (hcalls call hm inner hin).imp_left fun hplaced =>
        hplaced.mono (hlaid.keeps hfresh)
  | meanwhile _ hle ih =>
      obtain ⟨s, hstands, hroom, hcalls⟩ := ih
      exact ⟨s, ⟨hstands.traced, hstands.narrow, hstands.tapped.meanwhile hle⟩,
        hroom.mono fun k => supply_mono hle k, hcalls⟩

/-- A program that is run in one go is logged call by call. -/
theorem Proceeds.run (h : Proceeds b₀ w₀ calls b w) (hd : b.Stands s w)
    (hr : w.Room (s.keys ++ placed steps)) (hfree : ∀ step ∈ steps, step.FanFree)
    (hfresh : ∀ step ∈ steps, step.isFresh = false)
    (hy : Yields (assembleSteps b steps) w b' w') :
    ∃ more, Proceeds b₀ w₀ (calls ++ more) b' w' ∧ more.map Call.step = steps := by
  induction steps generalizing calls b s w with
  | nil =>
      obtain ⟨rfl, rfl⟩ := yields_pure.1 hy
      exact ⟨[], by rwa [List.append_nil], rfl⟩
  | cons step rest ih =>
      rw [List.forall_mem_cons] at hfree hfresh
      obtain ⟨b₁, w₁, hfirst, hy⟩ := of_yields_assembleSteps_cons hy
      rw [placed_cons, ← List.append_assoc] at hr
      obtain ⟨s₁, hlaid⟩ := Step.laid_of_fanFree hfree.1 hd hr.of_append hfirst
      have hadmits := Builder.admits_of_room (hd.traced.keys_eq ▸ hr.of_append)
      obtain ⟨more, hproceeds, hsteps⟩ := ih
        (h.call hfree.1 hfresh.1 hadmits hfirst) hlaid.stands
        (hr.of_spent (hlaid.spent.append _)) hfree.2 hfresh.2 hy
      refine ⟨⟨step, b, w, b₁⟩ :: more, ?_, by rw [List.map_cons, hsteps]⟩
      rwa [List.append_assoc] at hproceeds

theorem Proceeds.program (hr : w.Room (start.placed ++ placed steps))
    (hfree : ∀ step ∈ steps, step.FanFree)
    (hfresh : ∀ step ∈ steps, step.isFresh = false)
    (hy : Yields (start.make >>= fun b => assembleSteps b steps) w b w') :
    ∃ b₀ w₀ calls, Yields start.make w b₀ w₀ ∧ Proceeds b₀ w₀ calls b w' ∧
      calls.map Call.step = steps := by
  obtain ⟨b₀, w₀, hs, hy⟩ := yields_bind.1 hy
  obtain ⟨s, hstands, hspent⟩ := Start.stands hs
  obtain ⟨calls, hproceeds, hsteps⟩ :=
    Proceeds.run .start hstands (hr.of_spent (hspent.append _)) hfree hfresh hy
  exact ⟨b₀, w₀, calls, hs, hproceeds, hsteps⟩

/-! ## Finished flows -/

/-- The order of a finished flow. -/
def FlowGraph.marks (g : FlowGraph) : List Mark :=
  g.components.map Component.mark

/-- What becomes of the channel that a flow ends on. One that was made for it
is read by a bridge, and what was tapped off it goes behind that; any other
comes last of all. -/
structure Builder.Concluded (b : Builder) (w : Workshop) (g : FlowGraph) :
    Prop where
  held : b.HoldsBack w
  bridged : ∀ c, b.cursor.channel = some (.channel c) → c.implicit = true →
    ∃ front e, b.registry.marks = front ++ [.channel c.key] ∧
      g.marks = front ++ .channel c.key :: .endpoint e (some c.key) :: b.heldBack
  last : ∀ c, b.cursor.channel = some (.channel c) → c.implicit = false →
    b.EndsOn c g.marks ∧ g.marks.getLast? = some (.channel c.key)

theorem Builder.EndsOn.last {c : Channel} {marks : List Mark}
    (h : b.EndsOn c marks) :
    marks.getLast? = some (.channel c.key) := by
  obtain ⟨front, -, rfl⟩ := h
  exact List.getLast?_concat

/-- Whatever is in one piece when a flow is finished is so in its graph. -/
theorem Builder.Stands.finish (hd : b.Stands s w) (hr : w.Room s.keys)
    (hy : Yields b.finish w g w') :
    (∀ l, s.Holds l → l <:+: g.marks) ∧ b.Concluded w g := by
  obtain ⟨b₁, hclose, -, rfl⟩ := of_yields_finish hy
  have hmarks :
      b₁.flushDeferred.toGraph.marks = b₁.flushDeferred.registry.marks := by
    rw [FlowGraph.marks, components_toGraph]
    rfl
  rcases of_yields_closeImplicit hclose
    with ⟨rfl, -, hexplicit⟩ | ⟨c, hc, himplicit, hbridge⟩
  · rw [hd.traced.marks_flushDeferred hr.nodup] at hmarks
    refine ⟨fun l hl => ?_, hd.holdsBack, fun c hc himplicit => ?_,
      fun c hc _ => ?_⟩
    · rw [hmarks]
      exact (hl.flushed hd.narrow hd.traced.vacant).trans
        (List.prefix_append _ _).isInfix
    · rw [hexplicit c hc] at himplicit
      cases himplicit
    · rw [hmarks]
      have hends := hd.traced.ends_on hd.narrow hc
      exact ⟨hends, hends.last⟩
  · -- The flow stands on a channel that was made for it, so a bridge is put
    -- behind that.
    have ht := hd.traced.bare hd.narrow hc
    obtain ⟨s₁, htraced, hcloses, hspent⟩ :=
      hd.traced.closes_attach (w := { w with nextHandler := w.nextHandler + 1 }) hr
        (of_yields_bridge hbridge)
    have hflush :=
      htraced.marks_flushDeferred (Room.of_spent hr (hspent.congr rfl)).nodup
    have hbase : s₁.flushed.marks = s₁.base := by
      simp [Sketch.flushed, hcloses.vacant, Sketch.marks, Tip.marks]
    rw [hflush, hbase] at hmarks
    refine ⟨fun l hl => ?_, hd.holdsBack, fun c' hc' _ => ?_,
      fun c' hc' hexplicit => ?_⟩
    · rw [hmarks]
      exact (Sketch.holds_iff_of_taps (htraced.vacant hcloses.vacant)).1
        (hcloses.keeps l hl)
    · obtain rfl : c = c' := by simpa [hc] using hc'
      cases hcloses with
      | same hv =>
          rw [ht] at hv
          cases hv
      | read hreader _ =>
          rw [ht] at hreader
          obtain ⟨e, rfl⟩ := hreader.eq_of_some
          refine ⟨s.base, e, hd.traced.marks_of_bare ht, ?_⟩
          rw [hmarks, hd.traced.heldBack_eq]
          simp [Sketch.wired, Sketch.lead, ht]
    · rw [hc] at hc'
      cases hc'
      rw [himplicit] at hexplicit
      cases hexplicit

/-- In programs without fan-outs that use each channel of the caller's once,
the side flows of an endpoint stand in declared order right ahead of the
channel that it reads, which stands right ahead of the endpoint. The flows
that were tapped off a channel stand in the order of the calls, right behind
the reader that the channel got; if its flow ended on it, they stand ahead of
the channel. All this is so in each flow around the call, up to the finished
one. A channel of the caller's that the finished flow ends on comes last of
all. -/
theorem flows_in_place (hr : w₀.Room start.placed) (hs : Yields start.make w₀ b₀ w₁)
    (h : Proceeds b₀ w₁ calls b w) :
    (∀ call ∈ calls, ∀ inner, call.Makes inner → inner.Levels) ∧
    ∀ g w', Yields b.finish w g w' →
      (∀ call ∈ calls, ∀ inner, call.Makes inner → inner.Placed (· <:+: g.marks)) ∧
      b.Concluded w g := by
  obtain ⟨s₀, hstands₀, hspent₀⟩ := Start.stands hs
  obtain ⟨s, hstands, hroom, hcalls⟩ := h.stands hstands₀ (hr.of_spent hspent₀)
  refine ⟨fun call hm inner hin => (hcalls call hm inner hin).2, fun g w' hy => ?_⟩
  obtain ⟨hpieces, hconcluded⟩ := hstands.finish hroom hy
  exact ⟨fun call hm inner hin => (hcalls call hm inner hin).1.mono hpieces,
    hconcluded⟩

/-- A channel with a tap is read by an endpoint with two side flows, one of
which ends on a tapped channel; a branch of a router does so too, and the flow
ends on a channel of the caller's with two taps. -/
theorem flows_in_place_tapped :
    let own : Channel := ⟨⟨0⟩, some "own", .direct, [], false, none⟩
    let last : Channel := ⟨⟨1⟩, some "last", .direct, [], false, none⟩
    let program : List Step :=
      [.handle .bridge, .channel (.channel (.existing own)), .log .info none,
        .endpoint { handler := .bridge }
          [(.new .direct (some "a") [] [], [.log .info none]),
            (.new .direct (some "b") [] [], [.handle .bridge])],
        .route { strategy := .header "kind" } [("x", .flow [.log .info none]),
          ("y", .flow [.handle .bridge])],
        .channel (.channel (.existing last)), .log .info none, .log .info none]
    ∃ b₀ w₁ calls b w g w', Yields (Start.make (.empty {})) (.start 2 1) b₀ w₁ ∧
      Proceeds b₀ w₁ calls b w ∧ calls.map Call.step = program ∧
      Yields b.finish w g w' ∧
      g.components.map (fun c => c.key.number) =
        [2, 3, 8, 9, 6, 11, 7, 10, 0, 12, 4, 5, 18, 19, 15, 16, 14, 17, 13, 20, 21,
          22, 23, 24, 1] ∧
      (∀ call ∈ calls, ∀ inner, call.Makes inner →
        inner.Placed (· <:+: g.marks) ∧ inner.Levels) ∧
      b.Concluded w g := by
  intro own last program
  obtain ⟨g, w', hy, hkeys⟩ := exists_yields
    (m := (Start.empty {}).make >>= (fun b => assembleSteps b program) >>=
      Builder.finish) (f := fun g => g.components.map fun c => c.key.number)
    (w := .start 2 1)
    (y := [2, 3, 8, 9, 6, 11, 7, 10, 0, 12, 4, 5, 18, 19, 15, 16, 14, 17, 13,
        20, 21, 22, 23, 24, 1]) (by decide +kernel)
  obtain ⟨b, w, hrun, hfinish⟩ := yields_bind.1 hy
  obtain ⟨b₀, w₁, calls, hs, hproceeds, hsteps⟩ :=
    Proceeds.program (room_iff.2 (by decide)) (by decide) (by decide) hrun
  obtain ⟨hlevels, hfinished⟩ :=
    flows_in_place (room_iff.2 (by decide)) hs hproceeds
  obtain ⟨hplaced, hconcluded⟩ := hfinished g w' hfinish
  exact ⟨b₀, w₁, calls, b, w, g, w', hs, hproceeds, hsteps, hfinish, hkeys,
    fun call hm inner hin => ⟨hplaced call hm inner hin, hlevels call hm inner hin⟩,
    hconcluded⟩

end

end FlowAssembly
