import FlowAssembly.Proofs.Effects
import FlowAssembly.Proofs.Nesting

/-!
# The stages of a call

A call that branches has its flows assembled in between two stages of its own:
before them it makes its arguments, checks its options and finds out what its
branches start from, and behind them it takes the branches in. If the call is
to attach an interceptor to the current channel, that comes last of all, so a
call that fails has not attached it. A failure at any stage drops the builder.

Every kind of step is one such sequence (`Step.assemble_eq`). Where the order
of things counts, as it does for what a call that fails leaves behind, a
property has to be shown for the two stages only; the flows are an induction,
once for all kinds of steps.
-/

namespace FlowAssembly

open Assembly

/-- A call of which only its flows are not assembled yet. -/
structure Stage where
  /-- The builder that the flows are assembled for. -/
  builder : Builder
  /-- The flows, each with the channel that it starts at. -/
  flows : List (Channel × List Step) := []
  /-- What is done with the branches. -/
  close : List Branch → Assembly Builder
  /-- The interceptor that is attached in the end, with its channel. -/
  tap : Option (Channel × Interceptor) := none

/-- Attaches the interceptor that a call was made for. -/
def Stage.attach (st : Stage) : Assembly Unit :=
  match st.tap with
  | some (channel, interceptor) => addInterceptor channel interceptor
  | none => return ()

/-- What is left of a call once its flows can start. -/
def Stage.run (st : Stage) : Assembly Builder := do
  let branches ← st.flows.mapM st.builder.runBranch
  let b ← st.close branches
  st.attach
  return b

/-- A scatter before its branches are assembled, with the flows that they come
of. -/
def Scatter.seed (parts : ScatterParts) (gather : Channel) :
    Scatter → Assembly (Scattering × List (Channel × List Step))
  | .recipients plan members => do
      let channel ← implicitChannel
      let list := Builder.scatterList plan parts.list gather
      return ({ channel, branches := [], list := some (list, plan.id) },
        seededFlows (parts.list.openings.map Prod.snd) (members.map Prod.snd))
  | .publish plan subscribers => do
      let channel ← Builder.fanOutChannel plan parts.channel
      return ({ channel, branches := [], list := none },
        subscribers.map fun steps => (channel, steps))

/-- What a call does before its flows. -/
def Step.stage (b : Builder) : Step → Assembly Stage
  | .channel plan => do
      let source ← plan.make
      return { builder := b, close := fun _ => b.channel source }
  | .endpoint plan sides => do
      let handler ← plan.handler.make
      let seeds ← sides.mapM fun side => side.1.make
      let spec : EndpointSpec :=
        { handler, id := plan.id, lifecycle := plan.lifecycle,
          advice := plan.advice, poller := plan.poller }
      b.ensureOpen handler.componentType
      let input ← resolveInput b.cursor.channel handler
      checkPoller spec input.target
      return {
        builder := b
        flows := seeds.zip (sides.map Prod.snd)
        close := fun flows => do
          let flows ← b.leaveOpen flows
          b.wire spec input (flows.map Branch.registry) }
  | .wireTap plan destination => do
      let opening ← destination.openUp
      let selector ← parseOptional plan.selector
      let (b, point) ← b.tapPoint "wire-tap"
      return {
        builder := b
        flows := seededFlows [opening] [destination]
        close := fun flow => do
          let flow ← b.leaveOpen flow
          return { b with
            cursor := { b.cursor with
              deferred := b.cursor.deferred ++ flow.map Branch.registry } }
        tap := some
          (point,
            .wireTap
              { target := opening.toTarget, selector, timeout := plan.timeout }) }
  | .intercept plan => do
      let interceptor ← plan.make
      let (b, point) ← b.tapPoint interceptor.label
      return { builder := b, close := fun _ => return b,
               tap := some (point, interceptor) }
  | .route plan mappings => do
      let parts ← plan.make mappings
      ensure (plan.check mappings)
      b.ensureOpen "router"
      return {
        builder := b
        flows := seededFlows (parts.openings.map Prod.snd) (mappings.map Prod.snd)
        close := b.finishRoute plan parts }
  | .routeToRecipients plan recipients => do
      let parts ← plan.make recipients
      ensure (plan.check recipients)
      b.ensureOpen "recipient-list-router"
      return {
        builder := b
        flows := seededFlows (parts.openings.map Prod.snd) (recipients.map Prod.snd)
        close := b.finishRecipients plan parts }
  | .publishSubscribe plan subscribers => do
      let given ← plan.channel.mapM ChannelPlan.make
      let channel ← Builder.fanOutChannel plan given
      let b ← b.openFanOut channel
      return {
        builder := b
        flows := subscribers.map fun steps => (channel, steps)
        close := b.finishFanOut }
  | .scatterGather plan scatter => do
      let release ← plan.gather.release.make
      let parts ← scatter.make
      ensure (plan.check b.config scatter)
      b.ensureOpen "scatter-gather"
      let gather ← implicitChannel
      let (scattering, flows) ← scatter.seed parts gather
      return {
        builder := b
        flows
        close := fun branches =>
          b.finishScatterGather plan release { scattering with branches } gather }
  | .withId id => return { builder := b, close := fun _ => b.withId id }
  | .withSession session =>
      return { builder := b, close := fun _ => b.withSession session }
  | .fresh => return { builder := b, close := fun _ => do b.discard; Builder.new }
  | .faulty cause => throw cause

theorem Scatter.assemble_eq (b : Builder) (parts : ScatterParts) (gather : Channel)
    (scatter : Scatter) :
    scatter.assemble b parts gather = (do
      let (scattering, flows) ← scatter.seed parts gather
      let branches ← flows.mapM b.runBranch
      return { scattering with branches }) := by
  cases scatter with
  | recipients plan members =>
      simp only [assemble, seed, assembleRecipients_eq, bind_assoc, pure_bind]
  | publish plan subscribers =>
      simp only [assemble, seed, assembleSubscribers_eq, bind_assoc, pure_bind]

/-- A builder is not dropped by a call that always answers. -/
theorem Builder.guarded_of_answers {α : Type} {call : Assembly α}
    (h : ∀ w, ∃ a w', Yields call w a w') (b : Builder) :
    b.guarded call = call := by
  funext w
  obtain ⟨a, w', hy⟩ := h w
  exact (yields_guarded.2 hy).trans hy.symm

/-- A call goes through its stages, and a failure at any of them drops its
builder. -/
theorem Step.assemble_eq (s : Step) (b : Builder) :
    s.assemble b = b.guarded (s.stage b >>= Stage.run) := by
  match s with
  | .channel plan =>
      simp only [assemble, stage, Stage.run, Stage.attach, List.mapM_nil,
        bind_assoc, pure_bind, bind_pure]
  | .endpoint plan sides =>
      simp only [assemble, stage, Stage.run, Stage.attach, assembleSides_eq,
        bind_assoc, pure_bind, bind_pure]
  | .wireTap plan destination =>
      simp only [assemble, stage, Stage.run, Stage.attach, Builder.finishTap,
        Destination.assemble_eq, bind_assoc, pure_bind]
  | .intercept plan =>
      simp only [assemble, stage, Stage.run, Stage.attach, Builder.intercept,
        List.mapM_nil, bind_assoc, pure_bind]
  | .route plan mappings =>
      simp only [assemble, stage, Stage.run, Stage.attach, assembleMappings_eq,
        bind_assoc, pure_bind, bind_pure]
  | .routeToRecipients plan recipients =>
      simp only [assemble, stage, Stage.run, Stage.attach, assembleRecipients_eq,
        bind_assoc, pure_bind, bind_pure]
  | .publishSubscribe plan subscribers =>
      simp only [assemble, stage, Stage.run, Stage.attach, assembleSubscribers_eq,
        bind_assoc, pure_bind, bind_pure]
  | .scatterGather plan scatter =>
      simp only [assemble, stage, Stage.run, Stage.attach, Scatter.assemble_eq,
        bind_assoc, pure_bind, bind_pure]
  | .withId id | .withSession session =>
      simp only [assemble, stage, Stage.run, Stage.attach, List.mapM_nil,
        pure_bind, bind_pure]
  | .fresh =>
      simp only [assemble, stage, Stage.run, Stage.attach, List.mapM_nil,
        pure_bind, bind_pure]
      refine (Builder.guarded_of_answers (fun w => ?_) b).symm
      unfold Builder.discard
      split <;> exact ⟨_, _, rfl⟩
  | .faulty cause =>
      simp only [assemble, stage]
      rfl

/-- A call that answers went through all its stages. -/
theorem Step.of_yields {s : Step} {b b' : Builder} {w w' : Workshop}
    (h : Yields (s.assemble b) w b' w') :
    ∃ st w₁ branches w₂ w₃, Yields (s.stage b) w st w₁ ∧
      YieldsAll st.builder.runBranch w₁ st.flows branches w₂ ∧
      Yields (st.close branches) w₂ b' w₃ ∧ Yields st.attach w₃ () w' := by
  rw [assemble_eq, Builder.yields_guarded] at h
  simp only [Stage.run, yields_bind, yields_pure] at h
  obtain ⟨st, w₁, hst, branches, w₂, hbr, b₁, w₃, hclose, _, _, hattach,
    rfl, rfl⟩ := h
  exact ⟨st, w₁, branches, w₂, w₃, hst, yieldsAll_of_mapM hbr, hclose, hattach⟩

theorem Step.yields_of_stages {s : Step} {st : Stage} {b b' : Builder}
    {branches : List Branch} {w w₁ w₂ w₃ w' : Workshop}
    (hst : Yields (s.stage b) w st w₁)
    (hbr : YieldsAll st.builder.runBranch w₁ st.flows branches w₂)
    (hclose : Yields (st.close branches) w₂ b' w₃)
    (hattach : Yields st.attach w₃ () w') : Yields (s.assemble b) w b' w' := by
  rw [assemble_eq, Builder.yields_guarded, yields_bind]
  refine ⟨st, w₁, hst, ?_⟩
  simp only [Stage.run, yields_bind, yields_pure]
  exact ⟨branches, w₂, hbr.mapM, b', w₃, hclose, (), w', hattach, rfl, rfl⟩

/-! ## What each stage does -/

open Workshop

namespace Builder

theorem SameFlow.discard_eq {b b' : Builder} (h : b.SameFlow b') :
    b'.discard = b.discard := by
  unfold discard
  rw [h.session, h.flowId, h.nested]

/-- To end a nested builder does no more than to drop it. -/
theorem leaves_intoBranch {P : Workshop → Workshop → Prop} [Std.Refl P]
    [Trans P P P] {b : Builder} (hd : b.discard.Leaves P) :
    b.intoBranch.Leaves P := by
  rw [← b.sameFlow_flushDeferred.discard_eq] at hd
  refine .bind hd fun _ => ?_
  split
  · exact .fail _
  · exact .pure _
  · exact .pure _
  · exact .pure _

end Builder

theorem Scatter.seed_leaves (parts : ScatterParts) (gather : Channel)
    (scatter : Scatter) :
    (scatter.seed parts gather).Leaves Supplied := by
  cases scatter with
  | recipients plan members => exact .bind implicitChannel_leaves fun _ => .pure _
  | publish plan subscribers =>
      exact .bind (Builder.fanOutChannel_leaves plan parts.channel) fun _ => .pure _

/-- Up to its flows a call only adds for its own flow. -/
theorem Step.stage_adds (s : Step) (b : Builder) :
    (s.stage b).Leaves (Adds b.session b.flowId) := by
  match s with
  | .channel plan => exact .bind plan.make_leaves.adds fun _ => .pure _
  | .endpoint plan sides =>
      refine .bind plan.handler.make_leaves.adds fun _ =>
        .bind (.mapM fun side _ => side.1.make_leaves.adds) fun _ =>
          .bind (b.ensureOpen_leaves _).adds fun _ =>
            .bind (resolveInput_leaves _ _).adds fun _ => ?_
      exact .bind (checkPoller_leaves _ _).adds fun _ => .pure _
  | .wireTap plan destination =>
      refine .bind destination.openUp_leaves.adds fun _ =>
        .bind (parseOptional_leaves _).adds fun _ => ?_
      exact .bind (b.tapPoint_leaves _).adds fun _ => .pure _
  | .intercept plan =>
      exact .bind plan.make_leaves.adds fun _ =>
        .bind (b.tapPoint_leaves _).adds fun _ => .pure _
  | .route plan mappings =>
      exact .bind (plan.make_leaves mappings).adds fun _ =>
        .bind (ensure_leaves _).adds fun _ =>
          .bind (b.ensureOpen_leaves _).adds fun _ => .pure _
  | .routeToRecipients plan recipients =>
      exact .bind (plan.make_leaves recipients).adds fun _ =>
        .bind (ensure_leaves _).adds fun _ =>
          .bind (b.ensureOpen_leaves _).adds fun _ => .pure _
  | .publishSubscribe plan subscribers =>
      exact .bind (optional_make_leaves plan.channel).adds fun _ =>
        .bind (Builder.fanOutChannel_leaves plan _).adds fun _ =>
          .bind (b.openFanOut_adds _) fun _ => .pure _
  | .scatterGather plan scatter =>
      refine .bind plan.gather.release.make_leaves.adds fun _ =>
        .bind scatter.make_leaves.adds fun _ =>
          .bind (ensure_leaves _).adds fun _ =>
            .bind (b.ensureOpen_leaves _).adds fun _ => ?_
      exact .bind implicitChannel_leaves.adds fun _ =>
        .bind (scatter.seed_leaves _ _).adds fun _ => .pure _
  | .withId _ | .withSession _ | .fresh => exact .pure _
  | .faulty cause => exact .throw cause

/-- Whether the call is made to attach an interceptor. -/
def Step.taps : Step → Bool
  | .wireTap _ _ | .intercept _ => true
  | _ => false

/-- What a stage has to do with the builder that is called: it goes on for the
same flow and adds for that flow only, unless the flow itself is changed, and
it taps the current channel or one that was made for that. -/
structure Stage.Serves (st : Stage) (s : Step) (b : Builder) (w : Workshop) :
    Prop where
  same : b.SameFlow st.builder
  close : s.changesFlow = false →
    ∀ branches, (st.close branches).Leaves (Adds b.session b.flowId)
  closed : s.changesFlow = false →
    ∀ {branches w₂ b' w'}, Yields (st.close branches) w₂ b' w' → b.SameFlow b'
  taps : st.tap.isSome = s.taps
  tap : ∀ channel interceptor, st.tap = some (channel, interceptor) →
    b.currentKey? = some channel.key ∨ b.currentKey? = none ∧
    w.nextComponent ≤ channel.key.number

/-- A stage that attaches nothing in the end. -/
theorem Stage.serves_untapped {st : Stage} {s : Step} {b : Builder} {w : Workshop}
    (hsame : b.SameFlow st.builder)
    (hclose : s.changesFlow = false →
      ∀ branches,
        (st.close branches).Leaves (Adds st.builder.session st.builder.flowId))
    (hclosed : s.changesFlow = false →
      ∀ {branches w₂ b' w'}, Yields (st.close branches) w₂ b' w' →
        st.builder.SameFlow b')
    (htap : st.tap = none) (hs : s.taps = false) : st.Serves s b w where
  same := hsame
  close hs branches := hsame.adds (hclose hs branches)
  closed hs _ _ _ _ h := hsame.trans (hclosed hs h)
  taps := by rw [htap, hs]; rfl
  tap channel interceptor h := by
    rw [htap] at h
    cases h

theorem Builder.tapPoint_key {b b₁ : Builder} {attempted : String} {c : Channel}
    {w w₁ : Workshop} (h : Yields (b.tapPoint attempted) w (b₁, c) w₁) :
    b.SameFlow b₁ ∧
    (b.currentKey? = some c.key ∨ b.currentKey? = none ∧
      w.nextComponent ≤ c.key.number) := by
  refine ⟨.of_covers fun _ => covers_tapPoint h, ?_⟩
  rcases of_yields_tapPoint h with ⟨hc, -, -⟩ | ⟨hnone, -, hkey, -⟩
  · exact .inl (by rw [currentKey?, hc])
  · exact .inr ⟨by rw [currentKey?, hnone], Nat.le_of_eq (by rw [hkey])⟩

theorem Step.stage_serves {s : Step} {b : Builder} {st : Stage} {w w₁ : Workshop}
    (h : Yields (s.stage b) w st w₁) :
    st.Serves s b w := by
  match s with
  | .channel plan =>
      simp only [stage, yields_bind, yields_pure] at h
      obtain ⟨source, _, -, rfl, -⟩ := h
      exact Stage.serves_untapped (.refl b) (fun _ _ => b.channel_adds source)
        (fun _ _ _ _ _ h => .of_covers fun _ => Builder.covers_channel h) rfl rfl
  | .endpoint plan sides =>
      simp only [stage, yields_bind, yields_pure] at h
      obtain ⟨handler, _, -, seeds, _, -, _, _, -, input, _, -, _, _, -, rfl, -⟩ :=
        h
      refine Stage.serves_untapped (.refl b)
        (fun _ branches => .bind (b.leaveOpen_adds branches) fun _ =>
          b.wire_adds _ input _) (fun _ branches w₂ b' w' h => ?_) rfl rfl
      obtain ⟨closed, w₃, -, hw⟩ := yields_bind.1 h
      exact .of_covers fun _ => Builder.covers_wire hw
  | .wireTap plan destination =>
      simp only [stage, yields_bind, yields_pure] at h
      obtain ⟨opening, w₂, ho, selector, w₃, hp, ⟨b₁, c⟩, _, ht, rfl, -⟩ := h
      obtain ⟨hsame, hkey⟩ := Builder.tapPoint_key ht
      refine ⟨hsame,
        fun _ branches =>
          hsame.adds (.bind (b₁.leaveOpen_adds branches) fun _ => .pure _),
        fun _ branches w₂ b' w' h => ?_, rfl, ?_⟩
      · obtain ⟨closed, w₃, -, hw⟩ := yields_bind.1 h
        obtain ⟨rfl, -⟩ := yields_pure.1 hw
        exact hsame.trans ⟨rfl, rfl, rfl⟩
      · rintro channel interceptor ⟨⟩
        obtain rfl := eq_of_yields_parseOptional hp
        exact hkey.imp_right fun h =>
          ⟨h.1,
            Nat.le_trans (destination.openUp_leaves.of_yields ho).components h.2⟩
  | .intercept plan =>
      simp only [stage, yields_bind, yields_pure] at h
      obtain ⟨interceptor, w₂, hm, ⟨b₁, c⟩, _, ht, rfl, -⟩ := h
      obtain ⟨hsame, hkey⟩ := Builder.tapPoint_key ht
      refine ⟨hsame, fun _ _ => .pure _, fun _ branches w₂ b' w' h => ?_, rfl, ?_⟩
      · obtain ⟨rfl, -⟩ := yields_pure.1 h
        exact hsame
      · rintro channel interceptor ⟨⟩
        exact hkey.imp_right fun h =>
          ⟨h.1, Nat.le_trans (plan.make_leaves.of_yields hm).components h.2⟩
  | .route plan mappings =>
      simp only [stage, yields_bind, yields_pure] at h
      obtain ⟨parts, _, -, _, _, -, _, _, -, rfl, -⟩ := h
      exact Stage.serves_untapped (.refl b)
        (fun _ branches => b.finishRoute_adds plan parts branches)
        (fun _ _ _ _ _ h => .of_covers fun _ =>
          (Builder.of_yields_finishRoute h).covers) rfl rfl
  | .routeToRecipients plan recipients =>
      simp only [stage, yields_bind, yields_pure] at h
      obtain ⟨parts, _, -, _, _, -, _, _, -, rfl, -⟩ := h
      exact Stage.serves_untapped (.refl b)
        (fun _ branches => b.finishRecipients_adds plan parts branches)
        (fun _ _ _ _ _ h => .of_covers fun _ =>
          (Builder.of_yields_finishRecipients h).covers) rfl rfl
  | .publishSubscribe plan subscribers =>
      simp only [stage, yields_bind, yields_pure] at h
      obtain ⟨given, _, -, c, _, -, b₁, _, ho, rfl, -⟩ := h
      exact Stage.serves_untapped (.of_covers fun _ => Builder.covers_openFanOut ho)
        (fun _ branches => b₁.finishFanOut_adds branches)
        (fun _ _ _ _ _ h => .of_covers fun _ => Builder.covers_finishFanOut h)
        rfl rfl
  | .scatterGather plan scatter =>
      simp only [stage, yields_bind, yields_pure] at h
      obtain ⟨release, _, -, parts, _, -, _, _, -, _, _, -, gather, _, -,
        ⟨scattering, flows⟩, _, -, rfl, -⟩ := h
      exact Stage.serves_untapped (.refl b)
        (fun _ branches => b.finishScatterGather_adds plan release _ gather)
        (fun _ _ _ _ _ h => .of_covers fun _ =>
          Builder.covers_finishScatterGather h) rfl rfl
  | .withId _ | .withSession _ | .fresh =>
      simp only [stage, yields_pure] at h
      obtain ⟨rfl, -⟩ := h
      exact Stage.serves_untapped (.refl b) (fun h => by cases h)
        (fun h => by cases h) rfl rfl
  | .faulty cause => exact absurd h not_yields_throw

/-- A call goes on with the flow that it was made for, unless it changes that;
and a nested builder keeps to its parent's flow. -/
theorem Step.sameFlow {s : Step} {b b' : Builder} {w w' : Workshop}
    (hown : s.changesFlow = false ∨ b.nested = true ∧ s.isFresh = false)
    (h : Yields (s.assemble b) w b' w') :
    b.SameFlow b' := by
  cases hs : s.changesFlow with
  | false =>
      obtain ⟨st, w₁, branches, w₂, w₃, hst, -, hclose, -⟩ := of_yields h
      exact (stage_serves hst).closed hs hclose
  | true =>
      obtain ⟨hn, hfresh⟩ := hown.resolve_left (by simp [hs])
      cases s with
      | channel | endpoint | wireTap | intercept | route | routeToRecipients
      | publishSubscribe | scatterGather
      | faulty => cases hs
      | withId id =>
          simp only [assemble, Builder.yields_guarded, Builder.withId, hn, if_true,
            yields_pure] at h
          obtain ⟨rfl, -⟩ := h
          exact .refl _
      | withSession session =>
          simp only [assemble, Builder.yields_guarded, Builder.withSession, hn,
            if_true, yields_pure] at h
          obtain ⟨rfl, -⟩ := h
          exact .refl _
      | fresh => cases hfresh

/-- Where a call has flows, they are prepared once it stands before them. -/
theorem Step.prepare_of_stage {s : Step} {b : Builder} {st : Stage}
    {w w₁ : Workshop} (h : Yields (s.stage b) w st w₁) (hne : st.flows ≠ []) :
    Yields (s.prepare b) w (st.builder, st.flows) w₁ := by
  match s with
  | .endpoint plan sides =>
      simp only [stage, yields_bind, yields_pure, Builder.yields_ensureOpen] at h
      obtain ⟨handler, w₂, hm, seeds, w₃, hs, _, _, ⟨-, rfl⟩, input, w₄, hi,
        _, _, hp, rfl, rfl⟩ := h
      obtain rfl := eq_of_yields_checkPoller hp
      simp only [prepare, yields_bind, yields_pure]
      exact ⟨handler, w₂, hm, seeds, _, hs, input, _, hi, rfl, rfl⟩
  | .wireTap plan destination =>
      simp only [stage, yields_bind, yields_pure] at h
      obtain ⟨opening, w₂, ho, selector, _, hp, ⟨b₁, c⟩, w₃, ht, rfl, rfl⟩ := h
      obtain rfl := eq_of_yields_parseOptional hp
      simp only [prepare, yields_bind, yields_pure]
      exact ⟨opening, _, ho, (b₁, c), _, ht, rfl, rfl⟩
  | .route plan mappings =>
      simp only [stage, yields_bind, yields_pure, yields_ensure,
        Builder.yields_ensureOpen] at h
      obtain ⟨parts, w₂, hm, _, _, ⟨-, rfl⟩, _, _, ⟨-, rfl⟩, rfl, rfl⟩ := h
      simp only [prepare, yields_bind, yields_pure]
      exact ⟨parts, _, hm, rfl, rfl⟩
  | .routeToRecipients plan recipients =>
      simp only [stage, yields_bind, yields_pure, yields_ensure,
        Builder.yields_ensureOpen] at h
      obtain ⟨parts, w₂, hm, _, _, ⟨-, rfl⟩, _, _, ⟨-, rfl⟩, rfl, rfl⟩ := h
      simp only [prepare, yields_bind, yields_pure]
      exact ⟨parts, _, hm, rfl, rfl⟩
  | .publishSubscribe plan subscribers =>
      simp only [stage, yields_bind, yields_pure] at h
      obtain ⟨given, w₂, hm, c, w₃, hc, b₁, _, ho, rfl, rfl⟩ := h
      simp only [prepare, yields_bind, yields_pure]
      exact ⟨given, w₂, hm, c, w₃, hc, b₁, _, ho, rfl, rfl⟩
  | .scatterGather plan (.recipients list recipients) =>
      simp only [stage, Scatter.make, Scatter.seed, yields_bind, yields_pure,
        yields_ensure, Builder.yields_ensureOpen] at h
      obtain ⟨release, w₂, hr, _, _, ⟨parts, w₃, hm, rfl, rfl⟩, _, _, ⟨-, rfl⟩,
        _, _, ⟨-, rfl⟩, gather, w₄, hg, _, _, ⟨c, _, hc, rfl, rfl⟩, rfl, rfl⟩ := h
      simp only [prepare, yields_bind, yields_pure]
      exact ⟨release, w₂, hr, parts, _, hm, gather, w₄, hg, c, _, hc, rfl, rfl⟩
  | .scatterGather plan (.publish fan subscribers) =>
      simp only [stage, Scatter.make, Scatter.seed, yields_bind, yields_pure,
        yields_ensure, Builder.yields_ensureOpen] at h
      obtain ⟨release, w₂, hr, _, _, ⟨given, w₃, hm, rfl, rfl⟩, _, _, ⟨-, rfl⟩,
        _, _, ⟨-, rfl⟩, gather, w₄, hg, _, _, ⟨c, _, hc, rfl, rfl⟩, rfl, rfl⟩ := h
      simp only [prepare, yields_bind, yields_pure]
      exact ⟨release, w₂, hr, given, _, hm, gather, w₄, hg, c, _, hc, rfl, rfl⟩
  | .channel plan =>
      simp only [stage, yields_bind, yields_pure] at h
      obtain ⟨source, _, -, rfl, -⟩ := h
      exact absurd rfl hne
  | .intercept plan =>
      simp only [stage, yields_bind, yields_pure] at h
      obtain ⟨interceptor, _, -, point, _, -, rfl, -⟩ := h
      exact absurd rfl hne
  | .withId _ | .withSession _ | .fresh =>
      simp only [stage, yields_pure] at h
      obtain ⟨rfl, -⟩ := h
      exact absurd rfl hne
  | .faulty cause => exact absurd h not_yields_throw

/-- A call that taps nothing attaches nothing in the end. -/
theorem Step.yields_attach_iff {s : Step} {b : Builder} {st : Stage}
    {w w₁ w₃ w' : Workshop} (hs : s.taps = false) (h : Yields (s.stage b) w st w₁) :
    Yields st.attach w₃ () w' ↔ w' = w₃ := by
  have htap : st.tap = none :=
    Option.isNone_iff_eq_none.1 (by simpa [hs] using (stage_serves h).taps)
  rw [Stage.attach, htap, yields_pure]
  exact and_iff_right rfl

theorem Step.flow_mem_of_stage {s : Step} {b : Builder} {st : Stage}
    {w w₁ : Workshop} (h : Yields (s.stage b) w st w₁) {flow : Channel × List Step}
    (hf : flow ∈ st.flows) : flow.2 ∈ s.flows :=
  Step.flow_mem (prepare_of_stage h (List.ne_nil_of_mem hf)) hf

end FlowAssembly
