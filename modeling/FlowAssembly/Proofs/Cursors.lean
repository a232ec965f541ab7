import FlowAssembly.Proofs.Aftermath
import FlowAssembly.Proofs.LastEntries
import FlowAssembly.Proofs.Outputs

/-!
# What a cursor tells of its registry

A cursor is a shorthand for what its registry looks like, and the two fit
whatever was called: a registry that ends on a channel ends on the one that is
current, a current channel is registered and has no tail beside it, and an
output is pending exactly where it can be bound (`Builder.Poised`). A flow
that is nested in a call is poised as well, before each call that is made on
it, and what it hands back once its open end was closed ends on an endpoint
(`Step.HandsBack`).

Most of this a turn keeps (`Builder.Sound`, `Builder.Heeds`). What a registry
ends on is restored by whole calls only (`Step.upright`). And there is one way
for a registry to be empty: a flow that goes on with another builder than the
one it was handed may have nothing registered in that. So each registry that
is held back is told by the flow of its tap (`Builder.KeepsBack`).
-/

namespace FlowAssembly

open Assembly

/-- A cursor fits its registry, where the flows that were tapped are the given
ones. Those of the last ones are held back, in order, and end on endpoints;
the one of a flow that started afresh may also be empty. -/
structure Builder.Poised (tapped : List (List Step)) (b : Builder) : Prop where
  last : ∀ c, b.registry.last? = some (.channel c) → b.currentKey? = some c.key
  registered : ∀ c, b.cursor.channel = some (.channel c) →
    c.key ∈ b.registry.components.map Component.key
  tailless : b.cursor.channel ≠ none → b.cursor.tail = none
  marker : ∀ source ∈ b.cursor.channel, b.cursor.pending ≠ none →
    ∃ id, source = .fixedSubscriber id
  pending : ∀ output ∈ b.cursor.pending, ∃ x ∈ b.registry.components,
    x.key = output.component ∧ x.isWorker = true ∧ x.output? = none
  sources : ∀ s, .source s ∈ b.registry.components → s.output = none →
    ∃ output ∈ b.cursor.pending, output.component = s.key
  held : b.KeepsBack tapped

/-- Setting the output of the component finds it, whatever the output is set
to. -/
def Registry.Binds (r : Registry) (key : ComponentKey) : Prop :=
  ∀ target, ∃ x ∈ (r.bindOutput key target).components, x.key = key ∧
    x.output? = some target

/-- Each output that is pending at the desk, in the builder or in a branch, is
found when it is set. In the builder more may have been registered by then. -/
structure Desk.Binds (d : Desk) : Prop where
  builder : ∀ output ∈ d.builder.cursor.pending, ∀ r : Registry,
    d.builder.registry.components ⊆ r.components → r.Binds output.component
  branches : ∀ br ∈ d.branches, ∀ output, br.ending = .pending output →
    br.registry.Binds output.component

/-- In a call, each of the branches that its flows are assembled to has its
pending output found when that is set. If they are closed, each hands back a
registry that ends on an endpoint; one may also be empty, if its flow started
afresh. -/
def Step.HandsBack (s : Step) (b : Builder) (w : Workshop) : Prop :=
  ∀ st w₁ branches w₂, Yields (s.stage b) w st w₁ →
    YieldsAll st.builder.runBranch w₁ st.flows branches w₂ →
    (∀ br ∈ branches, ∀ output, br.ending = .pending output →
      br.registry.Binds output.component) ∧
    ∀ closed w₃, YieldsAll (fun br => br.leaveOpen st.builder) w₂ branches closed
      w₃ → List.Forall₂ (fun flow br => br.registry.Capped (restarts flow.2 = true))
      st.flows closed

variable {B : Channel → Prop} {main : Bool} {void : Prop}
  {tapped : List (List Step)} {s : Step} {program steps left : List Step}
  {b b' : Builder} {d : Desk} {ds : List Desk} {past : List Moment}
  {w w' : Workshop}

/-! ## Outputs that are found -/

theorem PendingOutput.Awaited.binds {output : PendingOutput} {r : Registry}
    (h : output.Awaited r.components) :
    r.Binds output.component := by
  obtain ⟨x, hx, hbelongs⟩ := h
  intro target
  rw [Registry.components_bindOutput]
  refine ⟨x.withOutput target, List.mem_map.2 ⟨x, hx, if_pos hbelongs.key⟩, ?_, ?_⟩
  · rw [Component.key_withOutput, hbelongs.key]
  · have hworker := Component.isWorker_of_replies hbelongs.replies
    cases x with
    | channel => cases hworker
    | endpoint | source => rfl

theorem Desk.Sound.binds (h : d.Sound) : d.Binds where
  builder output ho _ hr := ((h.builder.awaited output ho).mono hr).binds
  branches br hbr output ho := ((h.branches br hbr).awaited output ho).binds

/-- Whatever a run goes through, pending outputs are found. -/
theorem Desk.Binds.along : Kept (fun _ => True) fun brought past ds n =>
    Tidy (fun _ => false) brought ds n ∧ ∀ m ∈ past, ∀ d ∈ m.desks, d.Binds :=
  Tidy.kept_with nofun (fun _ _ => rfl)
    (fun _ _ htidy => by
      rw [List.forall_mem_singleton]
      exact fun d hd => (htidy.sound d hd).binds)
    (fun {brought past ds m n n'} htidy h ht => by
      rw [List.forall_mem_append, List.forall_mem_singleton]
      exact ⟨h, fun d hd => ((htidy.turn ht).sound d hd).binds⟩)
    fun h _ => h

/-! ## Builders that are called -/

/-- An upright builder is poised, if what turns keep holds of it. -/
theorem Builder.Upright.poised (h : b.Upright main void tapped) (hs : b.Sound)
    (hheeds : b.Heeds) :
    b.Poised tapped where
  last c hc := by
    rw [Registry.last?_eq] at hc
    obtain ⟨front, heq⟩ := List.getLast?_eq_some_iff.1 hc
    rcases h.last with ⟨-, hnil⟩ | ⟨front', x, heq', hx⟩
    · rw [hnil] at heq
      simp at heq
    · obtain ⟨-, heq⟩ := List.append_inj' (heq'.symm.trans heq) rfl
      cases heq
      exact hx.resolve_left Bool.false_ne_true
  registered := hs.current
  tailless := h.tailless
  marker source hsource hp := by
    have hunbound := hs.unbound hp source hsource
    cases source with
    | channel | named => cases hunbound
    | fixedSubscriber id => exact ⟨id, rfl⟩
  pending output ho := by
    obtain ⟨x, hx, hbelongs⟩ := hs.awaited output ho
    exact ⟨x, hx, hbelongs.key, Component.isWorker_of_replies hbelongs.replies,
      hbelongs.unset⟩
  sources s hm hnone := by
    have howes : (Component.source s).owes = true := by
      simp [Component.owes, Component.replies, Component.requires,
        Component.output?, hnone]
    obtain ⟨output, ho, hheeds⟩ := hheeds.pending _ hm howes
    exact ⟨output, ho, hheeds.1⟩
  held := h.held

theorem Builder.Started.upright {s : Start} {n n' : Nat} (h : b.Started s n n') :
    b.Upright true True tapped := by
  cases h with
  | bare hr ht _ hd hc =>
      exact ⟨.inl ⟨trivial, by rw [hr]; rfl⟩, fun _ => ht, .of_nil hd⟩
  | channel _ hr hc =>
      refine ⟨?_, fun _ => by rw [hc], .of_nil (by rw [hc])⟩
      rw [hr, currentKey?, hc]
      exact .concat [] (.inr rfl)
  | source hr _ _ hc =>
      exact .of_caps (by rw [hr]; exact .concat [] rfl) (by rw [hc]) (by rw [hc])

theorem Underway.upright (h : Underway (fun _ => True) program b w past) :
    b.Upright true True (program.flatMap Step.tapFlows) := by
  induction h with
  | start _ hy => exact (Start.started hy).upright
  | @call program s b b' w w' past history hu _ hb hy _ _ ih =>
      rw [List.flatMap_append, List.flatMap_singleton]
      exact (Step.upright (hu.tidy hb) (fun _ hc => hc) ih hy).mono
        (fun _ => trivial) (List.suffix_refl _)
  | meanwhile _ _ ih => exact ih

/-! ## Builders that are nested -/

/-- The calls that are left of a flow are preceded in it by those that were
made. Either it is the flow at hand, or one that is nested in a step of it. -/
theorem Visits.upright (h : Visits steps b w left b' w')
    (htidy : Tidy (fun _ => false) B ({ builder := b } :: d :: ds) w.nextComponent)
    (hb : ∀ c ∈ broughtBy steps, B c) (hu : b.Upright true True tapped) :
    (∃ made, made ++ left = steps ∧
      b'.Upright true True (tapped ++ made.flatMap Step.tapFlows)) ∨
    ∃ t ∈ stepsWithin steps, ∃ made, made ++ left ∈ t.flows ∧
      b'.Upright true True (made.flatMap Step.tapFlows) := by
  induction h generalizing d ds tapped with
  | here => exact .inl ⟨[], rfl, hu.mono id (by simp)⟩
  | @later s steps left b b₁ b' w w₁ w' hy _ ih =>
      rw [broughtBy_cons] at hb
      have hbs : ∀ c ∈ s.brought, B c :=
        fun c hc => hb c (List.mem_append_left _ hc)
      have hnext :=
        (Step.upright htidy hbs hu hy).mono (fun _ => trivial) (List.suffix_refl _)
      have hafter := htidy.passes (Step.passes_answer hbs hy)
      rcases ih hafter (fun c hc => hb c (List.mem_append_right _ hc)) hnext
        with ⟨made, rfl, hb'⟩ | ⟨t, ht, hmade⟩
      · refine .inl ⟨s :: made, rfl, ?_⟩
        rwa [List.flatMap_cons, ← List.append_assoc]
      · exact .inr ⟨t, List.mem_append_right _ ht, hmade⟩
  | @within s steps left b b' st before after flow branches w w₁ w₂ w' hst
      heq hys _ ih =>
        rw [broughtBy_cons] at hb
        have hbs : ∀ c ∈ s.brought, B c :=
          fun c hc => hb c (List.mem_append_left _ hc)
        obtain ⟨hflow, d', hpasses⟩ := Step.passes_flow hbs hst heq hys (d :: ds)
        have hmem := Step.flow_mem_of_stage hst
          (heq ▸ List.mem_append_right _ List.mem_cons_self)
        have hbranch : (st.builder.branch flow.1).Upright true True [] :=
          (st.builder.upright_branch flow.1).mono False.elim (List.suffix_refl _)
        right
        rcases ih (htidy.passes hpasses) hflow hbranch
          with ⟨made, hflow', hb'⟩ | ⟨t, ht, hmade⟩
        · exact ⟨s, List.mem_append_left _ List.mem_cons_self, made,
            hflow' ▸ hmem, hb'⟩
        · exact ⟨t,
            List.mem_append_left _
              (List.mem_cons_of_mem _ (Step.mem_inner hmem ht)), hmade⟩

theorem Step.Visits.upright (h : s.Visits b w left b' w')
    (htidy : Tidy (fun _ => false) B [{ builder := b }] w.nextComponent)
    (hb : ∀ c ∈ s.brought, B c) :
    ∃ t ∈ s :: s.inner, ∃ made, made ++ left ∈ t.flows ∧
      b'.Upright true True (made.flatMap Step.tapFlows) := by
  obtain ⟨st, w₁, before, flow, after, branches, w₂, hst, heq, hys, hv⟩ := h
  obtain ⟨hflow, d, hpasses⟩ := Step.passes_flow hb hst heq hys []
  have hmem :=
    Step.flow_mem_of_stage hst (heq ▸ List.mem_append_right _ List.mem_cons_self)
  have hbranch : (st.builder.branch flow.1).Upright true True [] :=
    (st.builder.upright_branch flow.1).mono False.elim (List.suffix_refl _)
  rcases hv.upright (htidy.passes hpasses) hflow hbranch
    with ⟨made, hflow', hb'⟩ | ⟨t, ht, hmade⟩
  · exact ⟨s, List.mem_cons_self, made, hflow' ▸ hmem, hb'⟩
  · exact ⟨t, List.mem_cons_of_mem _ (Step.mem_inner hmem ht), hmade⟩

/-- What is kept all along a run holds at every moment of the next call. -/
theorem Underway.kept_visits {usable : Channel → Prop}
    {I : (Channel → Prop) → List Moment → List Desk → Nat → Prop}
    (h : Underway usable program b w past) (hI : Kept usable I)
    (hb : ∀ c ∈ s.brought, usable c ∧ b.Knows w c) (hv : s.Visits b w left b' w') :
    ∃ history ds,
      I (· ∈ s.brought) (past ++ history) ({ builder := b' } :: ds)
        w'.nextComponent := by
  obtain ⟨-, ds, history, ht⟩ := hv.passes (B := (· ∈ s.brought)) fun c hc => hc
  exact ⟨history, ds, ht.induct hI.turn (hI.bring (h.kept hI) hb)⟩

theorem Step.handsBack (hc : Called s b w) : s.HandsBack b w := by
  obtain ⟨B, ds, hb, htidy⟩ := hc.tidy
  intro st w₁ branches w₂ hst hbr
  have hgiven : ∀ k ∈ st.flows.flatMap Builder.givenKeys,
      k.number < w₁.nextComponent :=
    fun k hk => (given_of_stage htidy hb hst k hk).2
  refine ⟨fun br hm output ho => ?_, fun closed w₃ hclose => ?_⟩
  · exact ((Builder.sound_of_runBranches hgiven hbr br hm).awaited output ho).binds
  · exact capped_of_leaveOpen
      (Builder.upright_runBranches (fun flow _ => keepsUpright flow.2) hgiven hbr)
      (lt_of_branches htidy hb hst hbr).2 hclose

/-- Whatever was called, the cursor of a builder fits its registry. What it
holds back comes of the last flows that were tapped, one by one; it ends on
endpoints, and is empty only where the flow of that very tap started afresh.
The same goes for each builder that is nested in a call, as it stands before
the calls that are made on it, and for the taps that were called on that
builder. Whichever of these builders is called, the flows of the call hand
back registries that end on endpoints, again but for those that started
afresh. And at no moment is an output pending that would not be found where it
is set. -/
theorem cursors_poised (h : Underway (fun _ => True) program b w past) :
    b.Poised (program.flatMap Step.tapFlows) ∧
    (∀ m ∈ past, ∀ d ∈ m.desks, d.Binds) ∧
    ∀ s : Step, (∀ c ∈ s.brought, b.Knows w c) →
      s.HandsBack b w ∧ ∀ left b' w', s.Visits b w left b' w' →
        (∃ t ∈ s :: s.inner, ∃ made, made ++ left ∈ t.flows ∧
          b'.Poised (made.flatMap Step.tapFlows)) ∧
        ∀ t rest, left = t :: rest → t.HandsBack b' w' := by
  obtain ⟨htidy, -, hheeds⟩ := h.kept Stable.along
  refine ⟨?_, (h.kept Desk.Binds.along).2,
    fun s hb => ⟨Step.handsBack (.own h hb), fun left b' w' hv => ⟨?_, ?_⟩⟩⟩
  · exact h.upright.poised (htidy.sound _ List.mem_cons_self).builder
      (hheeds _ List.mem_cons_self).builder
  · obtain ⟨-, ds, htidy', -, hheeds'⟩ :=
      h.kept_visits Stable.along (fun c hc => ⟨trivial, hb c hc⟩) hv
    obtain ⟨t, ht, made, hflow, hupright⟩ :=
      hv.upright (h.tidy fun c hc => ⟨trivial, hb c hc⟩) fun _ hc => hc
    exact ⟨t, ht, made, hflow,
      hupright.poised (htidy'.sound _ List.mem_cons_self).builder
        (hheeds' _ List.mem_cons_self).builder⟩
  · rintro t rest rfl
    exact Step.handsBack (.nested h hb hv)

/-- A fan-out with a subscriber that ends open, and a tap. Another tap is
called on that, whose own flow is tapped twice: before the second time, the
nested builder stands on a channel and holds a flow back as well. -/
theorem cursors_poised_tapped :
    let tap : Step := .wireTap {} (.flow [.handle .bridge])
    let program : List Step := [.publishSubscribe {} [[.handle .bridge], []], tap]
    let nested : Step := .wireTap {} (.flow [tap, tap])
    ∃ b w past b' w' st w₁ branches w₂ closed w₃,
      Underway (fun _ => True) program b w past ∧ nested.Visits b w [tap] b' w' ∧
      b.cursor.deferred.length = 1 ∧ b'.cursor.deferred.length = 1 ∧
      b.Poised [[.handle .bridge]] ∧ b'.Poised [[.handle .bridge]] ∧
      tap.HandsBack b' w' ∧ Yields (nested.stage b) w st w₁ ∧
      YieldsAll st.builder.runBranch w₁ st.flows branches w₂ ∧
      YieldsAll (fun br => br.leaveOpen st.builder) w₂ branches closed w₃ ∧
      closed.map (fun br => br.registry.components.map fun x => x.key.number) =
        [[7, 8, 9, 10, 6, 11]] ∧
      ∀ br ∈ closed, br.registry.Capped False := by
  intro tap program nested
  have hnothing : nested.brought = [] := by decide
  obtain ⟨⟨b, w, st, w₁, taps, w', closed⟩, w₃, hy, hall⟩ := exists_yields (m := do
      let b ← (Start.empty {}).make
      let b ← assembleSteps b program
      let w ← get
      let st ← nested.stage b
      let w₁ ← get
      let taps ← st.flows.mapM fun flow => tap.assemble (st.builder.branch flow.1)
      let w' ← get
      set w₁
      let branches ← st.flows.mapM st.builder.runBranch
      let closed ← branches.mapM fun br => br.leaveOpen st.builder
      return (b, w, st, w₁, taps, w', closed))
    (f := fun x =>
      (x.1.cursor.deferred.length,
        x.2.2.2.2.1.map (fun b => b.cursor.deferred.length),
        x.2.2.2.2.2.2.map fun br => br.registry.components.map fun x =>
          x.key.number))
    (w := .start 1 1) (y := (1, [1], [[7, 8, 9, 10, 6, 11]])) (by decide +kernel)
  simp only [yields_bind, yields_get, yields_set, yields_pure, Prod.mk.injEq]
    at hy hall
  obtain ⟨b₀, w₀, hmake, _, _, hsteps, _, _, ⟨rfl, rfl⟩, _, _, hst, _, _,
    ⟨rfl, rfl⟩, _, _, htaps, _, _, ⟨rfl, rfl⟩, _, _, rfl, branches, w₂, hbr,
    _, _, hclose, ⟨rfl, rfl, rfl, rfl, rfl, rfl, rfl⟩, rfl⟩ := hy
  obtain ⟨hheld, htapped, hclosed⟩ := hall
  have hstart : Underway (fun _ => True) [] b₀ w₀ [.first b₀] :=
    .start (by simp [Start.brought]) hmake
  obtain ⟨past, h, -⟩ := hstart.exists_steps (by decide) hsteps
  have hbr := yieldsAll_of_mapM hbr
  have hclose := yieldsAll_of_mapM hclose
  -- The tap has one flow, and in that the first of the two calls was made.
  obtain ⟨b', htaps', hheld'⟩ := List.map_eq_singleton_iff.1 htapped
  obtain ⟨flow, hflows⟩ : ∃ flow, st.flows = [flow] :=
    List.length_eq_one_iff.1
      (by rw [← (yieldsAll_of_mapM htaps).length_eq, htaps']; rfl)
  obtain ⟨c, rfl⟩ : ∃ c, flow = (c, [tap, tap]) := by
    have hmem := Step.flow_mem_of_stage hst (hflows ▸ List.mem_cons_self)
    exact ⟨flow.1, Prod.ext rfl (List.mem_singleton.1 hmem)⟩
  rw [hflows, htaps'] at htaps
  have hvisits : nested.Visits b w [tap] b' w' := by
    obtain ⟨_, _, _, heq, htap, hrest⟩ := (yieldsAll_of_mapM htaps).of_cons
    cases heq
    cases hrest
    exact ⟨st, w₁, [], (c, [tap, tap]), [], [], w₁, hst, hflows, .nil _,
      .later htap (.here _ _ _)⟩
  obtain ⟨hpoised, -, hcalls⟩ := cursors_poised h
  obtain ⟨hhands, hnested⟩ :=
    hcalls nested (by rw [hnothing]; exact List.forall_mem_nil _)
  obtain ⟨hpoised', hhands'⟩ := hnested _ _ _ hvisits
  have hcapped := (hhands st w₁ branches w₂ hst hbr).2 closed w₃ hclose
  -- Of all flows in the call only its own ends with the tap that is left.
  have hpoised' : b'.Poised [[.handle .bridge]] := by
    obtain ⟨t, ht, made, hflow, hmade⟩ := hpoised'
    have hcalls : nested :: nested.inner = [nested, tap, .handle .bridge, tap,
        .handle .bridge] :=
      rfl
    have hother : made ++ [tap] ≠ [.handle .bridge] := by
      intro heq
      have hlast := congrArg List.getLast? heq
      rw [List.getLast?_concat] at hlast
      have hsame : Step.wireTap {} (.flow [.handle .bridge]) =
          .endpoint { handler := .bridge } [] :=
        Option.some.inj hlast
      cases hsame
    have hlone : tap.flows = [[.handle .bridge]] := rfl
    have hnone : (Step.handle .bridge).flows = [] := rfl
    rw [hcalls] at ht
    simp only [List.mem_cons, List.not_mem_nil, or_false] at ht
    rcases ht with rfl | rfl | rfl | rfl | rfl
    · obtain rfl : made = [tap] :=
        List.append_left_inj [tap] |>.1 (List.mem_singleton.1 hflow)
      exact hmade
    all_goals simp [hlone, hnone, hother] at hflow
  refine ⟨b, w, past, b', w', st, w₁, branches, w₂, closed, w₃, h, hvisits, hheld,
    hheld', hpoised, hpoised', hhands' tap [] rfl, hst, hbr, hclose, hclosed, ?_⟩
  rw [hflows] at hcapped
  refine forall_of_forall₂ hcapped fun flow hm br hbr => hbr.mono ?_
  rw [List.mem_singleton.1 hm]
  exact (by decide : ¬ restarts [tap, tap] = true)

/-- A tap whose flow goes on with a fresh builder holds back a registry in
which nothing stands. -/
theorem cursors_fresh :
    let program : List Step := [.wireTap {} (.flow [.fresh])]
    ∃ b w past, Underway (fun _ => True) program b w past ∧
      b.cursor.deferred.map (fun r => r.components.length) = [0] ∧
      ¬ ∀ r ∈ b.cursor.deferred, r.Capped False := by
  intro program
  obtain ⟨b, w, hy, hheld⟩ := exists_yields
    (m := (Start.empty {}).make >>= fun b => assembleSteps b program)
    (f := fun b => b.cursor.deferred.map fun r => r.components.length)
    (w := .start 1 1) (y := [0]) (by decide +kernel)
  obtain ⟨b₀, w₀, hmake, hsteps⟩ := yields_bind.1 hy
  have hstart : Underway (fun _ => True) [] b₀ w₀ [.first b₀] :=
    .start (by simp [Start.brought]) hmake
  obtain ⟨past, h, -⟩ := hstart.exists_steps (by decide) hsteps
  refine ⟨b, w, past, h, hheld, fun hcapped => ?_⟩
  obtain ⟨r, hr, hempty⟩ := List.map_eq_singleton_iff.1 hheld
  rcases hcapped r (hr ▸ List.mem_cons_self) with ⟨hfalse, -⟩ | ⟨e, he⟩
  · exact hfalse
  · rw [Registry.last?_eq, List.length_eq_zero_iff.1 hempty] at he
    cases he

end FlowAssembly
