import FlowAssembly.Builder.ScatterGather
import FlowAssembly.Proofs.Outcome

/-!
# Making the arguments of a step

Before a step does its work it makes its arguments: channels, targets,
interceptors, handlers. That touches no claim, it only ever takes new
component keys from the counter, and it attaches interceptors to none but the
channels that it makes, whether it succeeds or stops at a fault (`Supplied`).
What a channel plan makes is the channel that it names, or a channel whose key
was taken from the counter while it was made.
-/

namespace FlowAssembly

/-- Between the two workshops interceptors were attached, to nothing but what
was made in between. -/
def Workshop.Dresses (w w' : Workshop) : Prop :=
  ∃ attached, w'.attached = w.attached ++ attached ∧
    ∀ known ∈ attached, w.nextComponent ≤ known.1.number

namespace Workshop.Dresses

variable {w w₁ w' : Workshop}

theorem of_eq (h : w'.attached = w.attached) : w.Dresses w' :=
  ⟨[], by simp [h], by simp⟩

theorem trans (h : w.Dresses w₁) (hn : w.nextComponent ≤ w₁.nextComponent)
    (h' : w₁.Dresses w') : w.Dresses w' := by
  obtain ⟨before, hb, hbefore⟩ := h
  obtain ⟨after, ha, hafter⟩ := h'
  refine ⟨before ++ after, by rw [ha, hb, List.append_assoc], fun known hk => ?_⟩
  rcases List.mem_append.1 hk with hk | hk
  · exact hbefore known hk
  · exact Nat.le_trans hn (hafter known hk)

end Workshop.Dresses

/-- Between the two workshops things were made: no claim changed, the counter
of components did not go back, and interceptors were attached only to what was
made. -/
structure Workshop.Supplied (w w' : Workshop) : Prop where
  claims : w'.claims = w.claims
  components : w.nextComponent ≤ w'.nextComponent
  attached : w.Dresses w'

namespace Workshop.Supplied

variable {w w₁ w' : Workshop}

/-- Nothing was attached. -/
theorem bare (hc : w'.claims = w.claims) (hn : w.nextComponent ≤ w'.nextComponent)
    (ha : w'.attached = w.attached) :
    w.Supplied w' :=
  ⟨hc, hn, .of_eq ha⟩

theorem refl (w : Workshop) : w.Supplied w :=
  bare rfl (Nat.le_refl _) rfl

theorem trans (h : w.Supplied w₁) (h' : w₁.Supplied w') : w.Supplied w' :=
  ⟨h'.claims.trans h.claims, Nat.le_trans h.components h'.components,
    h.attached.trans h.components h'.attached⟩

instance : Std.Refl Supplied := ⟨refl⟩

instance : Trans Supplied Supplied Supplied := ⟨trans⟩

end Workshop.Supplied

open Assembly Workshop

namespace Assembly

theorem supplied_of_yieldsAll {α β : Type} {f : α → Assembly β}
    (hf : ∀ a, (f a).Leaves Supplied) {w w' : Workshop} {as : List α} {bs : List β}
    (h : YieldsAll f w as bs w') : w.Supplied w' := by
  induction h with
  | nil w => exact Std.Refl.refl w
  | cons hb _ ih => exact Trans.trans ((hf _).of_yields hb) ih

theorem newComponentKey_leaves : newComponentKey.Leaves Supplied :=
  fun _ => .bare rfl (Nat.le_succ _) rfl

theorem newHandler_leaves (behaviour : Behaviour) :
    (newHandler behaviour).Leaves Supplied :=
  fun _ => .bare rfl (Nat.le_refl _) rfl

theorem newSession_leaves : newSession.Leaves Supplied :=
  fun _ => .bare rfl (Nat.le_refl _) rfl

theorem newFlowId_leaves (config : Config) : (newFlowId config).Leaves Supplied :=
  fun _ => .bare rfl (Nat.le_refl _) rfl

theorem implicitChannel_leaves : implicitChannel.Leaves Supplied :=
  .bind newComponentKey_leaves fun _ => .pure _

theorem boundChannel_leaves (id : Option String) (handler : Handler) :
    (boundChannel id handler).Leaves Supplied :=
  .bind newComponentKey_leaves fun _ => .pure _

theorem explicitChannel_leaves (kind : ChannelKind) (id : Option String)
    (datatypes : List String) :
    (explicitChannel kind id datatypes).Leaves Supplied :=
  .bind newComponentKey_leaves fun _ => .pure _

theorem ensure_leaves (check : Except FlowError Unit) :
    (ensure check).Leaves Supplied := by
  cases check with
  | ok _ => exact .pure _
  | error cause => exact .fail _

theorem parse_leaves (text : String) : (parse text).Leaves Supplied := by
  unfold parse
  split
  · exact .pure _
  · exact .fail _

theorem parseOptional_leaves (text : Option String) :
    (parseOptional text).Leaves Supplied := by
  cases text with
  | none => exact .pure _
  | some text => exact .map (parse_leaves text)

end Assembly

theorem Builder.withConfig_leaves (config : Config) :
    (Builder.withConfig config).Leaves Supplied :=
  .bind (newFlowId_leaves config) fun _ => .bind newSession_leaves fun _ => .pure _

theorem Builder.ensureOpen_leaves (b : Builder) (attempted : String) :
    (b.ensureOpen attempted).Leaves Supplied := by
  unfold ensureOpen
  split
  · split
    · exact .pure _
    · exact .fail _
  · exact .pure _

namespace Assembly

theorem resolveInput_leaves (current : Option ChannelSource) (handler : Handler) :
    (resolveInput current handler).Leaves Supplied := by
  match current with
  | some (.channel _) | some (.named _) => exact .pure _
  | some (.fixedSubscriber id) =>
      exact .bind (boundChannel_leaves id handler) fun _ => .pure _
  | none => exact .bind implicitChannel_leaves fun _ => .pure _

theorem checkPoller_leaves (spec : EndpointSpec) (input : Target) :
    (checkPoller spec input).Leaves Supplied := by
  unfold checkPoller
  split
  · split
    · exact .pure _
    · exact .fail _
  · exact .pure _

theorem newBridge_leaves : newBridge.Leaves Supplied :=
  .bind (newHandler_leaves .bridge) fun _ => .pure _

end Assembly

/-! ## Channels, targets and interceptors -/

theorem outcome_forM_attach (channel : Channel) (interceptors : List Interceptor)
    (w : Workshop) :
    (interceptors.forM (attach channel)).outcome w =
      (.ok ⟨⟩,
        { w with
          attached := w.attached ++
            interceptors.map fun interceptor => (channel.key, interceptor) }) := by
  induction interceptors generalizing w with
  | nil =>
      rw [List.map_nil, List.append_nil]
      rfl
  | cons interceptor rest ih =>
      show (attach channel interceptor >>= fun _ =>
          rest.forM (attach channel)).outcome w = _
      rw [outcome_bind]
      exact (ih _).trans (by simp [List.append_assoc])

theorem yields_forM_attach {channel : Channel} {interceptors : List Interceptor}
    {w w' : Workshop} {u : PUnit} :
    Yields (interceptors.forM (attach channel)) w u w' ↔
      w' = { w with
        attached := w.attached ++ interceptors.map fun interceptor =>
          (channel.key, interceptor) } := by
  rw [Yields, outcome_forM_attach]
  exact ⟨fun h => (congrArg Prod.snd h).symm, fun h => h ▸ rfl⟩

/-- A channel that is made with interceptors has a key of its own, so no other
channel gets any. -/
theorem explicitChannel_attach_leaves (kind : ChannelKind) (id : Option String)
    (datatypes : List String) (interceptors : List Interceptor) :
    (do
      let channel ← explicitChannel kind id datatypes
      if channel.supportsInterceptors then
        interceptors.forM (attach channel)
      return channel : Assembly Channel).Leaves Supplied := by
  intro w
  have hmade : (explicitChannel kind id datatypes).outcome w =
      (.ok ⟨⟨w.nextComponent⟩, id, kind, datatypes, false, none⟩,
        { w with nextComponent := w.nextComponent + 1 }) := rfl
  rw [outcome_bind, hmade]
  dsimp only
  split
  · rw [outcome_bind, outcome_forM_attach]
    exact ⟨rfl, Nat.le_succ _, _, rfl, by simp⟩
  · exact newComponentKey_leaves w

mutual

theorem ChannelPlan.make_leaves (plan : ChannelPlan) :
    plan.make.Leaves Supplied := by
  match plan with
  | .existing channel => exact .pure channel
  | .new kind id datatypes plans =>
      exact .bind (InterceptorPlan.makeAll_leaves plans) fun {_ interceptors _} _ =>
        explicitChannel_attach_leaves kind id datatypes interceptors
  | .faulty cause => exact .throw cause

theorem TargetPlan.make_leaves (plan : TargetPlan) : plan.make.Leaves Supplied := by
  match plan with
  | .channel plan => exact .map (ChannelPlan.make_leaves plan)
  | .named name => exact .pure _

theorem InterceptorPlan.make_leaves (plan : InterceptorPlan) :
    plan.make.Leaves Supplied := by
  match plan with
  | .custom name => exact .pure _
  | .wireTap target selector timeout =>
      exact .bind (TargetPlan.make_leaves target) fun _ =>
        .bind (parseOptional_leaves selector) fun _ => .pure _

theorem InterceptorPlan.makeAll_leaves (plans : List InterceptorPlan) :
    (InterceptorPlan.makeAll plans).Leaves Supplied := by
  match plans with
  | [] => exact .pure _
  | plan :: rest =>
      exact .bind (InterceptorPlan.make_leaves plan) fun _ =>
        .bind (InterceptorPlan.makeAll_leaves rest) fun _ => .pure _

end

theorem SourcePlan.make_leaves (plan : SourcePlan) : plan.make.Leaves Supplied := by
  match plan with
  | .channel plan => exact .map plan.make_leaves
  | .named name => exact .pure _
  | .fixedSubscriber id => exact .pure _

/-! ## Handlers and options -/

theorem ReleasePlan.make_leaves (plan : ReleasePlan) :
    plan.make.Leaves Supplied := by
  match plan with
  | .sequenceComplete | .count _ => exact .pure _
  | .expression text => exact .map (parse_leaves text)
  | .faulty cause => exact .throw cause

theorem HandlerPlan.make_leaves (plan : HandlerPlan) :
    plan.make.Leaves Supplied := by
  match plan with
  | .existing handler => exact .pure handler
  | .bridge | .service _ | .enricher _ => exact newHandler_leaves _
  | .transformer text | .splitter text _ | .logger _ _ text =>
      exact .bind (parseOptional_leaves text) fun _ => newHandler_leaves _
  | .filter selector _ _ =>
      exact .bind (parse_leaves selector) fun _ => newHandler_leaves _
  | .aggregator correlation release _ _ _ =>
      refine .bind (parseOptional_leaves correlation) fun _ => ?_
      exact .bind release.make_leaves fun _ => newHandler_leaves _
  | .custom _ _ _ targets =>
      exact .bind (.mapM fun target _ => target.make_leaves) fun _ =>
        newHandler_leaves _
  | .faulty cause => exact .throw cause

theorem StrategyPlan.make_leaves (plan : StrategyPlan) :
    plan.make.Leaves Supplied := by
  match plan with
  | .expression text => exact .map (parse_leaves text)
  | .header _ | .function _ _ => exact .pure _

theorem DefaultPlan.makeOptional_leaves (plan : Option DefaultPlan) :
    (DefaultPlan.makeOptional plan).Leaves Supplied := by
  match plan with
  | none | some .parentFlow => exact .pure _
  | some (.target plan) => exact .map (.map plan.make_leaves)

theorem Destination.openUp_leaves (destination : Destination) :
    destination.openUp.Leaves Supplied := by
  match destination with
  | .target plan => exact .map plan.make_leaves
  | .flow _ => exact .map implicitChannel_leaves

theorem RouterPlan.make_leaves (plan : RouterPlan)
    (mappings : List (String × Destination)) :
    (plan.make mappings).Leaves Supplied := by
  refine .bind plan.strategy.make_leaves fun _ =>
    .bind (.mapM fun mapping _ => ?_) fun _ =>
      .bind (DefaultPlan.makeOptional_leaves plan.default) fun _ => .pure _
  exact .bind mapping.2.openUp_leaves fun _ => .pure _

theorem RecipientsPlan.make_leaves (plan : RecipientsPlan)
    (recipients : List (Option String × Destination)) :
    (plan.make recipients).Leaves Supplied := by
  refine .bind (.mapM fun recipient _ => ?_) fun _ =>
    .bind (DefaultPlan.makeOptional_leaves plan.default) fun _ => .pure _
  exact .bind recipient.2.openUp_leaves fun _ =>
    .bind (parseOptional_leaves recipient.1) fun _ => .pure _

theorem optional_make_leaves (plan : Option ChannelPlan) :
    (plan.mapM ChannelPlan.make).Leaves Supplied := by
  match plan with
  | none => exact .pure _
  | some plan => exact .map plan.make_leaves

theorem Builder.mergeChannel_leaves (branches : List Branch) :
    (Builder.mergeChannel branches).Leaves Supplied := by
  unfold Builder.mergeChannel
  split
  · exact .pure _
  · exact implicitChannel_leaves

theorem Builder.fanOutChannel_leaves (plan : FanOutPlan) (given : Option Channel) :
    (Builder.fanOutChannel plan given).Leaves Supplied := by
  match given with
  | some channel => exact .pure channel
  | none => exact explicitChannel_leaves _ _ _

theorem Scatter.make_leaves (scatter : Scatter) : scatter.make.Leaves Supplied := by
  match scatter with
  | .recipients plan members =>
      exact .bind (plan.make_leaves members) fun _ => .pure _
  | .publish plan _ =>
      exact .bind (optional_make_leaves plan.channel) fun _ => .pure _

end FlowAssembly
