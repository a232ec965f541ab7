import FlowAssembly.Proofs.Calls
import FlowAssembly.Proofs.Extension
import FlowAssembly.Proofs.Ledger

/-!
# Strict termination

The flag of a strict end is a part of the configuration, and the configuration
is copied into every builder that is nested. All the same a run does not
depend on it before the flow is finished.

Two runs are not compared here. It is one equation that is carried through:
setting the flag of a builder and calling an operation is calling the
operation and setting the flag of its answer. Each operation has this equation
(`attach_strictly`, `channel_strictly` and so on), and so the stages of a call
have it (`Step.stage_strictly`). The flows in between cannot have it, since a
flow may go on with a builder that is fresh and has a flag of its own. But
they run alike once the flag is forgotten (`RunsAlike`), and a branch has no
flag, so what a call gets from its flows is the same (`runBranch_strictly`).
By induction over the nesting every call has the equation.

Two builders that differ in the flag at most are twins. A call comes to the
same on twins, the builders within it are twins again (`Twin.visits`), and
finishing is the only operation that can tell twins apart.
-/

namespace FlowAssembly

open Assembly

namespace Builder

/-- The builder with a strict end or without, and otherwise the same. -/
def strictly (strict : Bool) (b : Builder) : Builder :=
  { b with config := { b.config with strictTermination := strict } }

section

variable (v : Bool) (b : Builder)

/-! ## Operations that ignore the flag -/

theorem guarded_strictly {α : Type} (call : Assembly α) :
    (b.strictly v).guarded call = b.guarded call :=
  rfl

theorem ensureOpen_strictly (attempted : String) :
    (b.strictly v).ensureOpen attempted = b.ensureOpen attempted :=
  rfl

theorem converge_strictly (branches : List Branch) (merge : Channel) :
    (b.strictly v).converge branches merge = b.converge branches merge :=
  rfl

theorem reconcile_strictly (branches : List Branch)
    (default : Option DefaultOutput) :
    (b.strictly v).reconcile branches default = b.reconcile branches default :=
  rfl

/-! ## Operations that keep the flag -/

-- The fields that an operation looks at are told apart, and each case is one
-- by computation.

theorem flushDeferred_strictly :
    (b.strictly v).flushDeferred = b.flushDeferred.strictly v := by
  obtain ⟨_, _, _, _, _, ⟨_, _, _, _ | _⟩, _, _⟩ := b <;> rfl

/-- A branch has no flag. -/
theorem intoBranch_strictly : (b.strictly v).intoBranch = b.intoBranch := by
  rw [intoBranch, intoBranch, flushDeferred_strictly]
  rfl

theorem ready_strictly (input : ResolvedInput) (sides : List Registry) :
    (b.strictly v).ready input sides = (b.ready input sides).strictly v := by
  obtain ⟨_, _, _, _, _, ⟨_, _, _ | _, _⟩, _, _⟩ :=
    b <;> obtain ⟨_, _ | _⟩ := input <;> cases sides <;> rfl

theorem wire_strictly (spec : EndpointSpec) (input : ResolvedInput)
    (sides : List Registry) :
    (b.strictly v).wire spec input sides =
      strictly v <$> b.wire spec input sides := by
  have hwire : ∀ b : Builder, b.wire spec input sides = (do
      let r ← registerEndpoint (b.ready input sides).session
        (b.ready input sides).flowId (b.ready input sides).registry
        spec input.target
      let b := flushDeferred { b.ready input sides with registry := r.1 }
      return { b with
        cursor := { b.cursor with
          tail := some ⟨r.2.label, spec.handler.producesReplies⟩
          pending :=
            if spec.handler.producesReplies then
              some { component := r.2.key, owner := r.2.label,
                     requiresReply := spec.handler.requiresReply }
            else none } }) := fun b => rfl
  rw [hwire, hwire, ready_strictly]
  generalize b.ready input sides = ready
  rw [map_bind]
  obtain ⟨_, _, _, _, _, ⟨_, _, _, _ | _⟩, _, _⟩ := ready <;> rfl

theorem attach_strictly (spec : EndpointSpec) :
    (b.strictly v).attach spec = strictly v <$> b.attach spec := by
  simp only [attach, wire_strictly, map_bind]
  rfl

theorem bridge_strictly : (b.strictly v).bridge = strictly v <$> b.bridge := by
  simp only [bridge, attach_strictly, map_bind]

theorem appended_strictly (source : ChannelSource) :
    (b.strictly v).appended source = (b.appended source).strictly v := by
  obtain ⟨_, _, _, _, _, ⟨_, _, _ | _, _⟩, _, _⟩ := b <;> cases source <;> rfl

theorem channel_strictly (source : ChannelSource) :
    (b.strictly v).channel source = strictly v <$> b.channel source := by
  have hchannel : ∀ b : Builder, b.channel source = (do
      b.ensureOpen ("channel " ++ source.label)
      let b ← if b.cursor.channel.isSome then b.bridge else pure b
      return b.appended source) := fun b => rfl
  have hcurrent : (b.strictly v).cursor = b.cursor := rfl
  rw [hchannel, hchannel, ensureOpen_strictly, hcurrent, map_bind]
  refine bind_congr fun _ => ?_
  split
  · simp only [bridge_strictly, map_bind, bind_map_left, appended_strictly,
      map_pure]
  · simp only [pure_bind, appended_strictly, map_pure]

theorem tapPoint_strictly (attempted : String) :
    (b.strictly v).tapPoint attempted =
      Prod.map (strictly v) id <$> b.tapPoint attempted := by
  have hcurrent : (b.strictly v).cursor.channel = b.cursor.channel := rfl
  rw [tapPoint, tapPoint, ensureOpen_strictly, map_bind, hcurrent]
  refine bind_congr fun _ => ?_
  split
  · split <;> rfl
  · rfl
  · rw [map_bind]
    refine bind_congr fun c => ?_
    rw [map_pure]
    exact congrArg (fun b => (pure (b, c) : Assembly (Builder × Channel)))
      (appended_strictly v b (.channel c))

theorem absorbMerged_strictly (branches : List Branch) (merge : Option Channel) :
    (b.strictly v).absorbMerged branches merge =
      strictly v <$> b.absorbMerged branches merge := by
  cases merge with
  | none => rfl
  | some merge => exact bridge_strictly v (b.mergedOn branches merge)

theorem openFanOut_strictly (c : Channel) :
    (b.strictly v).openFanOut c = strictly v <$> b.openFanOut c := by
  have hcurrent : (b.strictly v).currentKey? = b.currentKey? := rfl
  rw [openFanOut, openFanOut, hcurrent]
  split
  · rfl
  · exact channel_strictly v b _

theorem withId_strictly (id : String) :
    (b.strictly v).withId id = strictly v <$> b.withId id := by
  have hnested : (b.strictly v).nested = b.nested := rfl
  rw [withId, withId, hnested]
  split
  · rfl
  · rw [map_bind]
    rfl

theorem withSession_strictly (session : SessionId) :
    (b.strictly v).withSession session = strictly v <$> b.withSession session := by
  have hnested : (b.strictly v).nested = b.nested := rfl
  rw [withSession, withSession, hnested]
  split
  · rfl
  · rw [map_bind]
    rfl

theorem finishRoute_strictly (plan : RouterPlan) (parts : RouterParts)
    (branches : List Branch) :
    (b.strictly v).finishRoute plan parts branches =
      strictly v <$> b.finishRoute plan parts branches := by
  simp only [finishRoute, reconcile_strictly, attach_strictly,
    absorbMerged_strictly, map_bind, bind_map_left]

theorem finishRecipients_strictly (plan : RecipientsPlan) (parts : RecipientParts)
    (branches : List Branch) :
    (b.strictly v).finishRecipients plan parts branches =
      strictly v <$> b.finishRecipients plan parts branches := by
  simp only [finishRecipients, reconcile_strictly, attach_strictly,
    absorbMerged_strictly, map_bind, bind_map_left]

theorem finishFanOut_strictly (branches : List Branch) :
    (b.strictly v).finishFanOut branches =
      strictly v <$> b.finishFanOut branches := by
  rw [finishFanOut, finishFanOut, map_bind]
  rfl

theorem registerScatter_strictly (scattering : Scattering)
    (branches : List Branch) :
    (b.strictly v).registerScatter scattering branches =
      strictly v <$> b.registerScatter scattering branches := by
  unfold registerScatter
  cases scattering.list with
  | none => rfl
  | some list =>
      dsimp only
      rw [map_bind]
      refine bind_congr fun handler => ?_
      have hattach := attach_strictly v { b with
        registry := b.registry.add (.channel scattering.channel)
        cursor := { b.cursor with channel := some (.channel scattering.channel) } }
          { handler, id := list.2 }
      refine (congrArg
        (· >>= fun b => (pure (b.absorb branches) : Assembly Builder))
        hattach).trans ?_
      rw [bind_map_left, map_bind]
      rfl

theorem finishScatterGather_strictly (plan : ScatterGatherPlan) (release : Release)
    (scattering : Scattering) (gather : Channel) :
    (b.strictly v).finishScatterGather plan release scattering gather =
      strictly v <$> b.finishScatterGather plan release scattering gather := by
  unfold finishScatterGather
  simp only [map_bind, converge_strictly]
  refine bind_congr fun branches => bind_congr fun gatherer =>
    bind_congr fun handler => ?_
  rw [attach_strictly, bind_map_left]
  refine bind_congr fun own => ?_
  have hscatter := registerScatter_strictly v
    { own with cursor := { own.cursor with tail := none, pending := none } }
    scattering branches
  refine (congrArg (· >>= _) hscatter).trans ?_
  rw [bind_map_left]
  refine bind_congr fun scattered => ?_
  have hattach := attach_strictly v
    (continueFrom
      { scattered with registry := scattered.registry.add (.channel gather) }
      (.channel gather)) { handler := gatherer }
  refine (congrArg (· >>= _) hattach).trans ?_
  rw [bind_map_left]
  rfl

end

end Builder

/-! ## Stages -/

/-- The stage for a builder whose flag is set. -/
def Stage.strictly (v : Bool) (st : Stage) : Stage :=
  { st with builder := st.builder.strictly v,
            close := fun branches => Builder.strictly v <$> st.close branches }

theorem Stage.strictly_eq {v : Bool} {b : Builder}
    {flows : List (Channel × List Step)}
    {close close' : List Branch → Assembly Builder}
    {tap : Option (Channel × Interceptor)}
    (h : ∀ branches, close' branches = Builder.strictly v <$> close branches) :
    ({ builder := b.strictly v, flows, close := close', tap } : Stage) =
      Stage.strictly v { builder := b, flows, close, tap } := by
  rw [Stage.strictly, funext h]

/-- What a call does before its flows and behind them keeps the flag. Only a
fresh start has a flag of its own. -/
theorem Step.stage_strictly {s : Step} (hs : s.isFresh = false) (v : Bool)
    (b : Builder) :
    s.stage (b.strictly v) = Stage.strictly v <$> s.stage b := by
  cases s with
  | channel plan =>
      simp only [stage, map_bind, map_pure]
      exact bind_congr fun source =>
        congrArg pure
        (Stage.strictly_eq fun _ => Builder.channel_strictly v b source)
  | endpoint plan sides =>
      simp only [stage, map_bind, map_pure]
      refine bind_congr fun handler => bind_congr fun seeds =>
        bind_congr fun _ => bind_congr fun input =>
          bind_congr fun _ => congrArg pure (Stage.strictly_eq fun branches => ?_)
      rw [map_bind]
      exact bind_congr fun closed => Builder.wire_strictly v b _ input _
  | wireTap plan destination =>
      simp only [stage, map_bind, map_pure, Builder.tapPoint_strictly,
        bind_map_left]
      refine bind_congr fun opening => bind_congr fun selector =>
        bind_congr fun point =>
          congrArg pure (Stage.strictly_eq fun branches => ?_)
      rw [map_bind]
      rfl
  | intercept plan =>
      simp only [stage, map_bind, map_pure, Builder.tapPoint_strictly,
        bind_map_left]
      exact bind_congr fun interceptor => bind_congr fun point =>
        congrArg pure (Stage.strictly_eq fun _ => rfl)
  | route plan mappings =>
      simp only [stage, map_bind, map_pure]
      exact bind_congr fun parts => bind_congr fun _ => bind_congr fun _ =>
        congrArg pure (Stage.strictly_eq fun _ => Builder.finishRoute_strictly ..)
  | routeToRecipients plan recipients =>
      simp only [stage, map_bind, map_pure]
      exact bind_congr fun parts => bind_congr fun _ => bind_congr fun _ =>
        congrArg pure
          (Stage.strictly_eq fun _ => Builder.finishRecipients_strictly ..)
  | publishSubscribe plan subscribers =>
      simp only [stage, map_bind, map_pure, Builder.openFanOut_strictly,
        bind_map_left]
      exact bind_congr fun given => bind_congr fun channel =>
        bind_congr fun fanned =>
          congrArg pure
            (Stage.strictly_eq fun _ => Builder.finishFanOut_strictly ..)
  | scatterGather plan scatter =>
      simp only [stage, map_bind, map_pure]
      exact bind_congr fun release => bind_congr fun parts =>
        bind_congr fun _ => bind_congr fun _ =>
          bind_congr fun gather => bind_congr fun seeded =>
            congrArg pure
              (Stage.strictly_eq fun _ => Builder.finishScatterGather_strictly ..)
  | withId id =>
      exact congrArg pure
        (Stage.strictly_eq fun _ => Builder.withId_strictly v b id)
  | withSession session =>
      exact congrArg pure
        (Stage.strictly_eq fun _ => Builder.withSession_strictly v b session)
  | fresh => cases hs
  | faulty cause => rfl

/-- A fresh start does not look at the builder that it throws away. -/
theorem Step.assemble_strictly_of_fresh {s : Step} (hs : s.isFresh = true)
    (v : Bool) (b : Builder) :
    s.assemble (b.strictly v) = s.assemble b := by
  cases s <;> cases hs
  rw [assemble_fresh, assemble_fresh]
  rfl

/-! ## Runs -/

namespace Assembly

variable {α β : Type}

theorem ext_outcome {m m' : Assembly α} (h : ∀ w, m.outcome w = m'.outcome w) :
    m = m' :=
  funext h

theorem outcome_map (f : α → β) (m : Assembly α) (w : Workshop) :
    (f <$> m).outcome w =
      match m.outcome w with
      | (.ok a, w₁) => (.ok (f a), w₁)
      | (.error cause, w₁) => (.error cause, w₁) := by
  rw [map_eq_pure_bind, outcome_bind]
  rfl

/-- What follows a step matters only for its answers. -/
theorem bind_congr_of_yields {m : Assembly α} {f g : α → Assembly β}
    (h : ∀ {w a w'}, Yields m w a w' → f a = g a) : m >>= f = m >>= g := by
  refine ext_outcome fun w => ?_
  rw [outcome_bind, outcome_bind]
  split
  · next a w' hy => rw [h hy]
  · rfl

end Assembly

theorem Builder.guarded_map {α β : Type} (b : Builder) (f : α → β)
    (call : Assembly α) :
    b.guarded (f <$> call) = f <$> b.guarded call := by
  refine ext_outcome fun w => ?_
  rw [outcome_map, guarded, guarded, outcome_tryCatch,
    outcome_tryCatch, outcome_map]
  obtain ⟨result, w'⟩ := call.outcome w
  cases result with
  | ok a => rfl
  | error cause =>
      dsimp only
      rw [← outcome_map, map_bind]
      rfl

/-- The runs come to the same, but for the strictness of the builder in the
end. -/
def RunsAlike (steps : List Step) : Prop :=
  ∀ (u v : Bool) (b : Builder), Builder.strictly u <$> assembleSteps
    (b.strictly v) steps = Builder.strictly u <$> assembleSteps b steps

/-- A branch does not depend on the strictness of the builder that it is for. -/
theorem Builder.runBranch_strictly {flow : Channel × List Step}
    (hf : RunsAlike flow.2) (v : Bool) (b : Builder) :
    (b.strictly v).runBranch flow = b.runBranch flow := by
  have hbranch : ∀ b : Builder,
      b.runBranch flow =
      (Builder.strictly false <$> assembleSteps (b.branch flow.1) flow.2) >>=
        Builder.intoBranch := by
    intro b
    rw [bind_map_left, Builder.runBranch]
    simp only [Builder.intoBranch_strictly]
  rw [hbranch, hbranch]
  exact congrArg (· >>= Builder.intoBranch) (hf false v (b.branch flow.1))

section

variable {s : Step} {v : Bool} {b : Builder}

theorem Step.run_strictly (hf : ∀ flow ∈ s.flows, RunsAlike flow) {st : Stage}
    {w w₁ : Workshop} (hst : Yields (s.stage b) w st w₁) :
    (st.strictly v).run = Builder.strictly v <$> st.run := by
  have hflows : st.flows.mapM (st.builder.strictly v).runBranch =
      st.flows.mapM st.builder.runBranch :=
    mapM_eq_mapM (List.forall₂_same.2 fun flow hm =>
      Builder.runBranch_strictly (hf flow.2 (flow_mem_of_stage hst hm))
        v st.builder)
  have hrun : (st.strictly v).run = (do
      let branches ← st.flows.mapM (st.builder.strictly v).runBranch
      let b ← Builder.strictly v <$> st.close branches
      st.attach
      return b) := rfl
  rw [hrun, hflows, Stage.run, map_bind]
  refine bind_congr fun branches => ?_
  rw [bind_map_left, map_bind]
  refine bind_congr fun b => ?_
  rw [map_bind]
  rfl

/-- A call does not look at the strictness of its builder, and keeps it. -/
theorem Step.assemble_strictly_of (hf : ∀ flow ∈ s.flows, RunsAlike flow)
    (hs : s.isFresh = false) :
    s.assemble (b.strictly v) = Builder.strictly v <$> s.assemble b := by
  rw [assemble_eq, assemble_eq, stage_strictly hs, bind_map_left,
    ← Builder.guarded_map, map_bind]
  exact congrArg b.guarded (bind_congr_of_yields fun hst => run_strictly hf hst)

end

theorem runsAlike (steps : List Step) : RunsAlike steps := by
  refine Step.flow_induction (P := fun s => ∀ flow ∈ s.flows, RunsAlike flow)
    (Q := RunsAlike) ?step ?nil ?cons steps
  case step => exact fun _ ih => ih
  case nil => exact fun u v b => rfl
  case cons =>
    intro s rest hs hrest u v b
    rw [assembleSteps, assembleSteps]
    cases hfresh : s.isFresh with
    | true => rw [Step.assemble_strictly_of_fresh hfresh]
    | false =>
        rw [Step.assemble_strictly_of hs hfresh, bind_map_left, map_bind, map_bind]
        exact bind_congr fun c => hrest u v c

/-- Setting the flag and making a call is making the call and setting the
flag. -/
theorem Step.assemble_strictly {s : Step} (hs : s.isFresh = false) (v : Bool)
    (b : Builder) :
    s.assemble (b.strictly v) = Builder.strictly v <$> s.assemble b :=
  assemble_strictly_of (fun flow _ => runsAlike flow) hs

/-! ## Two runs -/

/-- The builders are the same, but for whether they allow a loose end. -/
def Builder.Twin (b b' : Builder) : Prop :=
  ∃ v, b' = b.strictly v

/-- From the workshop the two calls come to the same: they answer builders
that are twins, or they fail with one cause, and they leave one workshop. -/
inductive Assembly.Matches (call call' : Assembly Builder) (w : Workshop) : Prop
  | answers {b b' : Builder} {w' : Workshop} : Yields call w b w' →
      Yields call' w b' w' → b.Twin b' → Matches call call' w
  | fails {cause : Refusal} {w' : Workshop} : Stops call w cause w' →
      Stops call' w cause w' → Matches call call' w

namespace Assembly.Matches

variable {call call' : Assembly Builder} {b : Builder} {w w' : Workshop}

theorem of_map (v : Bool) (call : Assembly Builder) (w : Workshop) :
    Matches call (Builder.strictly v <$> call) w := by
  match h : call.outcome w with
  | (.ok b, w') => exact .answers h (yields_map.2 ⟨b, h, rfl⟩) ⟨v, rfl⟩
  | (.error cause, w') =>
      refine .fails h ?_
      rw [map_eq_pure_bind]
      exact stops_bind.2 (.inl h)

theorem of_yields (h : Matches call call' w) (hy : Yields call w b w') :
    ∃ b', Yields call' w b' w' ∧ b.Twin b' := by
  cases h with
  | answers hy' hy'' htwin =>
      obtain ⟨rfl, rfl⟩ := hy.eq hy'
      exact ⟨_, hy'', htwin⟩
  | fails hs => cases hy.symm.trans hs

end Assembly.Matches

namespace Builder.Twin

variable {s : Step} {steps left : List Step} {b b' c : Builder} {st : Stage}
  {w w₁ w' : Workshop}

theorem refl (b : Builder) : b.Twin b :=
  ⟨b.config.strictTermination, rfl⟩

theorem symm (h : b.Twin b') : b'.Twin b := by
  obtain ⟨v, rfl⟩ := h
  exact ⟨b.config.strictTermination, rfl⟩

theorem runBranch_eq (h : b.Twin b') : b'.runBranch = b.runBranch := by
  obtain ⟨v, rfl⟩ := h
  exact funext fun flow => runBranch_strictly (runsAlike flow.2) v b

theorem intoBranch_eq (h : b.Twin b') : b.intoBranch = b'.intoBranch := by
  obtain ⟨v, rfl⟩ := h
  exact (intoBranch_strictly v b).symm

theorem branch (h : b.Twin b') (seed : Channel) :
    (b.branch seed).Twin (b'.branch seed) := by
  obtain ⟨v, rfl⟩ := h
  exact ⟨v, rfl⟩

/-- A call comes to the same on twins. -/
theorem assemble (h : b.Twin b') (s : Step) (w : Workshop) :
    Matches (s.assemble b) (s.assemble b') w := by
  obtain ⟨v, rfl⟩ := h
  cases hs : s.isFresh with
  | true =>
      rw [Step.assemble_strictly_of_fresh hs]
      match h : (s.assemble b).outcome w with
      | (.ok b', w') => exact .answers h h (.refl b')
      | (.error cause, w') => exact .fails h h
  | false =>
      rw [Step.assemble_strictly hs]
      exact .of_map v _ w

/-- Up to its flows a call comes to the same on twins. -/
theorem stage (h : b.Twin b') (hst : Yields (s.stage b) w st w₁) :
    ∃ st', Yields (s.stage b') w st' w₁ ∧ st'.flows = st.flows ∧
      st.builder.Twin st'.builder := by
  obtain ⟨v, rfl⟩ := h
  cases hs : s.isFresh with
  | true =>
      cases s <;> cases hs
      obtain ⟨rfl, rfl⟩ := yields_pure.1 hst
      exact ⟨_, yields_pure.2 ⟨rfl, rfl⟩, rfl, v, rfl⟩
  | false =>
      refine ⟨st.strictly v, ?_, rfl, v, rfl⟩
      rw [Step.stage_strictly hs]
      exact yields_map.2 ⟨st, hst, rfl⟩

/-- Where a builder stands while steps run, a twin of it stands while they run
on a twin. -/
theorem visits (h : b.Twin b') (hv : Visits steps b w left c w') :
    ∃ c', c.Twin c' ∧ Visits steps b' w left c' w' := by
  induction hv generalizing b' with
  | here => exact ⟨b', h, .here _ _ _⟩
  | later hy _ ih =>
      obtain ⟨b₁', hy', htwin⟩ := (h.assemble _ _).of_yields hy
      obtain ⟨c', hc, hv⟩ := ih htwin
      exact ⟨c', hc, .later hy' hv⟩
  | within hst heq hys _ ih =>
      obtain ⟨st', hst', hflows, htwin⟩ := h.stage hst
      obtain ⟨c', hc, hv⟩ := ih (htwin.branch _)
      rw [← htwin.runBranch_eq] at hys
      exact ⟨c', hc, .within hst' (hflows.trans heq) hys hv⟩

/-- Where a builder stands while a call runs, a twin of it stands while the
call runs on a twin. -/
theorem step_visits (h : b.Twin b') (hv : s.Visits b w left c w') :
    ∃ c', c.Twin c' ∧ s.Visits b' w left c' w' := by
  obtain ⟨st, w₁, before, flow, after, branches, w₂, hst, heq, hys, hv⟩ := hv
  obtain ⟨st', hst', hflows, htwin⟩ := h.stage hst
  obtain ⟨c', hc, hv⟩ := (htwin.branch flow.1).visits hv
  rw [← htwin.runBranch_eq] at hys
  exact ⟨c', hc, st', w₁, before, flow, after, branches, w₂, hst',
    hflows.trans heq, hys, hv⟩

end Builder.Twin

/-! ## Finishing -/

namespace Builder

variable {b : Builder} {c : Channel} {g : FlowGraph} {v : Bool} {w w' : Workshop}

/-- The flow ends on a channel of the assembler's own. -/
def EndsLoose (b : Builder) (c : Channel) : Prop :=
  b.cursor.channel = some (.channel c) ∧ c.implicit = true

theorem closeImplicit_of_not_loose (h : ∀ c, ¬ b.EndsLoose c) :
    b.closeImplicit = pure b := by
  unfold closeImplicit
  split
  · next c hc =>
    split
    · next himplicit => exact absurd ⟨hc, himplicit⟩ (h c)
    · rfl
  · rfl

/-- A flow that does not end loose is finished alike, strictly or not. -/
theorem finish_strictly (h : ∀ c, ¬ b.EndsLoose c) (v : Bool) :
    (b.strictly v).finish = b.finish := by
  have h' : ∀ c, ¬ (b.strictly v).EndsLoose c := h
  rw [finish, finish, guarded_strictly, closeImplicit_of_not_loose h,
    closeImplicit_of_not_loose h', pure_bind, pure_bind, flushDeferred_strictly]
  rfl

/-- A strict flow is not finished if it ends loose. -/
theorem finish_strict (h : b.EndsLoose c)
    (hstrict : b.config.strictTermination = true) (hends : b.checkEnds = .ok ())
    (w : Workshop) :
    ∃ w', Stops b.finish w (.flow (.danglingChannel c.label)) w' := by
  have hclose : Stops b.closeImplicit w (.flow (.danglingChannel c.label)) w := by
    rw [closeImplicit, h.1]
    dsimp only
    rw [if_pos h.2, if_pos hstrict]
    exact stops_throw.2 ⟨rfl, rfl⟩
  obtain ⟨w', hd⟩ := b.exists_discard w
  refine ⟨w', stops_guarded.2 ⟨w, ?_, hd⟩⟩
  rw [stops_bind_of_yields (a := ()) (yields_ensure.2 ⟨hends, rfl⟩)]
  exact stops_bind.2 (.inl hclose)

/-- A flow that ends loose is finished with a bridge behind its end. -/
theorem bridge_of_finish (h : b.EndsLoose c)
    (hgiven : ∀ x ∈ b.components, x.key.number < w.nextComponent)
    (hy : Yields b.finish w g w') :
    ∃ e, .endpoint e ∈ g.components ∧ e.handler.behaviour = .bridge ∧
      e.input = .channel c := by
  obtain ⟨b₁, hclose, -, -⟩ := of_yields_finish hy
  rw [components_of_yields_finish hy hclose]
  rcases of_yields_closeImplicit hclose with ⟨-, -, hexplicit⟩ | ⟨c', -, -, hbridge⟩
  · exact absurd h.2 (by rw [hexplicit c h.1]; exact Bool.false_ne_true)
  · obtain ⟨input, w₁, hi, hw⟩ := of_yields_attach (of_yields_bridge hbridge)
    rw [h.1] at hi
    obtain ⟨rfl, rfl⟩ := yields_pure.1 hi
    obtain ⟨e, rfl, hfresh, hhandler, hinput, -⟩ := wired_of_yields hw
    refine ⟨e, subset_flushDeferred _ (mem_wired fun x hx => ?_), ?_, hinput⟩
    · simp only [madeChannels, Option.toList_none, List.map_nil, List.flatMap_nil,
        List.append_nil] at hx
      exact hfresh.ne_of_lt (hgiven x (b.registry_subset_components hx))
    · rw [hhandler]

end Builder

/-! ## Running a program twice -/

/-- A program is run twice, with a strict end and without. Both flows start in
the same workshop and are called with the same steps; others may work in
between, and do the same both times. Channels that the caller brings were made
before. -/
inductive RunTwice (config : Config) : List Step → Builder → Builder →
    Workshop → Prop
  | start {strict lax : Builder} {w w' : Workshop} :
      Yields (Start.empty { config with strictTermination := true }).make w strict
        w' →
      Yields (Start.empty { config with strictTermination := false }).make w
        lax w' → RunTwice config [] strict lax w'
  | call {program : List Step} {s : Step} {strict lax strict' lax' : Builder}
      {w w' : Workshop} : RunTwice config program strict lax w → s.isFresh = false →
      (∀ c ∈ s.brought, strict.Knows w c) →
      Yields (s.assemble strict) w strict' w' → Yields (s.assemble lax) w lax' w' →
      RunTwice config (program ++ [s]) strict' lax' w'
  | meanwhile {program : List Step} {strict lax : Builder} {w w' : Workshop} :
      RunTwice config program strict lax w → w.nextComponent ≤ w'.nextComponent →
      RunTwice config program strict lax w'

namespace RunTwice

variable {config : Config} {program : List Step} {strict lax : Builder}
  {w : Workshop}

/-- Both builders are one, with a strict end and without. -/
theorem eq_strictly (h : RunTwice config program strict lax w) :
    ∃ b : Builder, strict = b.strictly true ∧ lax = b.strictly false := by
  induction h with
  | start hy hy' =>
      simp only [Start.make, Builder.withConfig, yields_bind, yields_newFlowId,
        yields_newSession, yields_pure] at hy hy'
      obtain ⟨_, _, ⟨rfl, rfl⟩, _, _, ⟨rfl, rfl⟩, rfl, rfl⟩ := hy
      obtain ⟨_, _, ⟨rfl, rfl⟩, _, _, ⟨rfl, rfl⟩, rfl, -⟩ := hy'
      refine ⟨{ flowId := _, session := _, nested := false, config,
                registry := .empty, cursor := {}, namedInput := none,
                input := none }, rfl, rfl⟩
  | call _ hfresh _ hy hy' ih =>
      obtain ⟨b, rfl, rfl⟩ := ih
      rw [Step.assemble_strictly hfresh, yields_map] at hy hy'
      obtain ⟨b', hb', rfl⟩ := hy
      obtain ⟨b'', hb'', rfl⟩ := hy'
      obtain ⟨rfl, -⟩ := hb'.eq hb''
      exact ⟨b', rfl, rfl⟩
  | meanwhile _ _ ih => exact ih

theorem exists_underway (h : RunTwice config program strict lax w) :
    ∃ past, Underway (fun _ => True) program lax w past := by
  induction h with
  | start _ hy' => exact ⟨_, .start (by simp [Start.brought]) hy'⟩
  | call h hfresh hb _ hy' ih =>
      obtain ⟨b, rfl, rfl⟩ := h.eq_strictly
      obtain ⟨past, hu⟩ := ih
      obtain ⟨history, hu, -⟩ := hu.exists_call hfresh
        (fun c hc => ⟨trivial, (hb c hc).made, (hb c hc).same⟩) hy'
      exact ⟨_, hu⟩
  | meanwhile _ hle ih =>
      obtain ⟨past, hu⟩ := ih
      exact ⟨past, .meanwhile hu hle⟩

theorem given (h : RunTwice config program strict lax w) :
    ∀ x ∈ lax.components, x.key.number < w.nextComponent := by
  obtain ⟨past, hu⟩ := h.exists_underway
  have htidy := hu.tidy (s := .withId "") (fun c hc => by cases hc)
  exact htidy.given_builder

end RunTwice

/-- A strict end changes nothing before a flow is finished. Whatever the
configuration, in a program that is run twice each call comes to the same, and
so does each call within it, at any depth. A flow that ends on a channel of
the assembler's own is refused for that channel by the strict run if the other
run finishes it, and then a bridge reads the channel there. Any other flow is
finished alike, or fails alike. -/
theorem strictness_only_ends (config : Config) :
    (∀ w, ∃ strict lax w',
      Yields (Start.empty { config with strictTermination := true }).make
        w strict w' ∧
      Yields (Start.empty { config with strictTermination := false }).make
        w lax w') ∧
    ∀ program strict lax w, RunTwice config program strict lax w →
      strict.Twin lax ∧
      (∀ s : Step, Matches (s.assemble strict) (s.assemble lax) w) ∧
      (∀ (s : Step) left b v, s.Visits strict w left b v →
        ∃ b', s.Visits lax w left b' v ∧ b.Twin b' ∧
          (∀ t : Step, Matches (t.assemble b) (t.assemble b') v) ∧
          b.intoBranch = b'.intoBranch) ∧
      (∀ (s : Step) left b' v, s.Visits lax w left b' v →
        ∃ b, s.Visits strict w left b v ∧ b.Twin b') ∧
      (∀ c g w', strict.EndsLoose c → Yields lax.finish w g w' →
        (∃ w'', Stops strict.finish w (.flow (.danglingChannel c.label)) w'') ∧
        ∃ e, .endpoint e ∈ g.components ∧ e.handler.behaviour = .bridge ∧
          e.input = .channel c) ∧
      ((∀ c, ¬ strict.EndsLoose c) →
        strict.finish.outcome w = lax.finish.outcome w) := by
  refine ⟨fun w => ⟨_, _, _, rfl, rfl⟩, fun program strict lax w h => ?_⟩
  obtain ⟨b, rfl, rfl⟩ := h.eq_strictly
  have htwin : (b.strictly true).Twin (b.strictly false) := ⟨false, rfl⟩
  refine ⟨htwin, fun s => htwin.assemble s w, fun s left c v hv => ?_,
    fun s left c' v hv => ?_, fun c g w' hc hy => ?_, fun hc => ?_⟩
  · obtain ⟨c', hc, hv'⟩ := htwin.step_visits hv
    exact ⟨c', hv', hc, fun t => hc.assemble t v, hc.intoBranch_eq⟩
  · obtain ⟨c, hc, hv'⟩ := htwin.symm.step_visits hv
    exact ⟨c, hv', hc.symm⟩
  · have hends : (b.strictly true).checkEnds = .ok () :=
      Builder.checkEnds_of_yields_finish (b := b.strictly false) hy
    exact ⟨Builder.finish_strict hc rfl hends w,
      Builder.bridge_of_finish (b := b.strictly false) hc h.given hy⟩
  · rw [Builder.finish_strictly (b := b) hc true,
      Builder.finish_strictly (b := b) hc false]

/-- A tap at the end of a flow leaves it on a channel of the assembler's own.
Ahead of the tap both runs finish the flow; in the flow of the tap a builder
stands both times; and behind the tap the strict run refuses what the other
one closes with a bridge. -/
theorem strictness_only_ends_tap :
    let config : Config := {}
    let tap : Step := .wireTap {} (.flow [.handle .bridge])
    ∃ strict lax w strict' lax' w' c g v,
      RunTwice config [.handle .bridge] strict lax w ∧ (∀ c, ¬ strict.EndsLoose c) ∧
      strict.finish.outcome w = lax.finish.outcome w ∧
      (∃ left b b' v, tap.Visits strict w left b v ∧ tap.Visits lax w left b' v ∧
        b.Twin b') ∧
      RunTwice config [.handle .bridge, tap] strict' lax' w' ∧
      strict'.EndsLoose c ∧ Yields lax'.finish w' g v ∧
      (∃ v, Stops strict'.finish w' (.flow (.danglingChannel c.label)) v) ∧
      ∃ e, .endpoint e ∈ g.components ∧ e.handler.behaviour = .bridge ∧
        e.input = .channel c := by
  intro config tap
  have hbridge : (Step.handle .bridge).brought = [] := by decide
  have htap : tap.brought = [] := by decide
  obtain ⟨⟨strict, lax, w, strict', lax', w', g⟩, v, hy, hall⟩ :=
    exists_yields (m := do
      let w₀ ← get
      let strict ← (Start.empty { config with strictTermination := true }).make
      set w₀
      let lax ← (Start.empty { config with strictTermination := false }).make
      let w₁ ← get
      let strict ← (Step.handle .bridge).assemble strict
      set w₁
      let lax ← (Step.handle .bridge).assemble lax
      let w ← get
      let strict' ← tap.assemble strict
      set w
      let lax' ← tap.assemble lax
      let w' ← get
      let g ← lax'.finish
      return (strict, lax, w, strict', lax', w', g))
    (f := fun x =>
      (x.1.cursor.channel.isNone,
        (x.2.2.2.1.finish.outcome x.2.2.2.2.2.1).1.toOption.isSome))
    (w := .start 1 1) (y := (true, false)) (by decide +kernel)
  simp only [yields_bind, yields_get, yields_set, yields_pure, Prod.mk.injEq]
    at hy hall
  obtain ⟨_, _, ⟨rfl, rfl⟩, strict₀, _, hstrict₀, _, _, rfl, lax₀, _, hlax₀,
    _, _, ⟨rfl, rfl⟩, _, _, hstrict, _, _, rfl, _, _, hlax, _, w, ⟨rfl, rfl⟩,
    _, _, hstrict', _, _, rfl, _, _, hlax', _, _, ⟨rfl, rfl⟩, _, _, hg,
    ⟨rfl, rfl, rfl, rfl, rfl, rfl, rfl⟩, rfl⟩ := hy
  obtain ⟨hstarts, hruns⟩ := strictness_only_ends config
  obtain ⟨_, _, _, hs, hl⟩ := hstarts (.start 1 1)
  obtain ⟨rfl, rfl⟩ := hstrict₀.eq hs
  obtain ⟨rfl, rfl⟩ := hlax₀.eq hl
  have h₀ : RunTwice config [] strict₀ lax₀ _ := .start hs hl
  obtain ⟨-, hcalls₀, -⟩ := hruns _ _ _ _ h₀
  obtain ⟨_, hcall, -⟩ := (hcalls₀ (.handle .bridge)).of_yields hstrict
  obtain ⟨rfl, rfl⟩ := hlax.eq hcall
  have h₁ : RunTwice config [.handle .bridge] strict lax w :=
    .call h₀ rfl (fun c hc => by rw [hbridge] at hc; cases hc) hstrict hlax
  obtain ⟨-, hcalls₁, hvisits, -, -, hfinish⟩ := hruns _ _ _ _ h₁
  obtain ⟨_, hcall, -⟩ := (hcalls₁ tap).of_yields hstrict'
  obtain ⟨rfl, rfl⟩ := hlax'.eq hcall
  have h₂ : RunTwice config [.handle .bridge, tap] strict' lax' w' :=
    .call h₁ rfl (fun c hc => by rw [htap] at hc; cases hc) hstrict' hlax'
  obtain ⟨-, -, -, -, hloose, hsame⟩ := hruns _ _ _ _ h₂
  have hbound : ∀ c, ¬ strict.EndsLoose c := fun c hc => by
    rw [hc.1] at hall
    cases hall.1
  obtain ⟨c, hc⟩ : ∃ c, strict'.EndsLoose c := by
    by_contra hnone
    have hanswer := hall.2
    rw [hsame (not_exists.1 hnone), hg] at hanswer
    cases hanswer
  obtain ⟨left, b, v₁, hv⟩ : ∃ left b v₁, tap.Visits strict w left b v₁ := by
    obtain ⟨st, w₁, _, _, _, hst, -⟩ := Step.of_yields hstrict'
    have hst' := hst
    simp only [tap, Step.stage, yields_bind, yields_pure] at hst'
    obtain ⟨opening, _, hopening, _, _, -, _, _, -, rfl, -⟩ := hst'
    obtain ⟨seed, -, rfl⟩ := yields_map.1 hopening
    exact ⟨_, _, _, _, _, [], _, [], _, _, hst, rfl, .nil _, .here _ _ _⟩
  obtain ⟨b', hv', htwin, -⟩ := hvisits tap left b v₁ hv
  obtain ⟨hstops, hread⟩ := hloose c g v hc hg
  exact ⟨strict, lax, w, strict', lax', w', c, g, v, h₁, hbound, hfinish hbound,
    ⟨left, b, b', v₁, hv, hv', htwin⟩, h₂, hc, hg, hstops, hread⟩

end FlowAssembly
