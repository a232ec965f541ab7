import FlowAssembly.Builder.Finish
import FlowAssembly.Proofs.ClaimCounts
import FlowAssembly.Proofs.Repliers

/-!
# What a builder does by itself

Apart from its flows, and from the interceptor that it is called to attach, a
call of a builder does three things to the workshop. It claims handlers, under
the id and in the session of its flow. It takes identities from the counters.
And it attaches interceptors to the channels that it makes. All this only ever
adds (`Workshop.Adds`), and a call that fails on its way has added as much as
it got to. Dropping a builder, renaming it and moving it are not looked at
here.
-/

namespace FlowAssembly

/-- Between the two workshops a flow claimed handlers and made things. -/
structure Workshop.Adds (session : SessionId) (owner : String) (w w' : Workshop) :
    Prop where
  claims : ∃ claimed, w'.claims.claims = w.claims.claims ++ claimed ∧
    ∀ c ∈ claimed, c.session = session ∧ c.owner = owner
  single : w.claims.Single → w'.claims.Single
  components : w.nextComponent ≤ w'.nextComponent
  attached : w.Dresses w'

namespace Workshop.Adds

variable {session : SessionId} {owner : String} {w w₁ w' : Workshop}

theorem of_supplied (h : w.Supplied w') : Adds session owner w w' where
  claims := ⟨[], by simp [h.claims], by simp⟩
  single hs := h.claims ▸ hs
  components := h.components
  attached := h.attached

theorem refl (w : Workshop) : Adds session owner w w :=
  of_supplied (.refl w)

theorem trans (h : Adds session owner w w₁) (h' : Adds session owner w₁ w') :
    Adds session owner w w' := by
  refine ⟨?_, fun hs => h'.single (h.single hs),
    Nat.le_trans h.components h'.components,
    h.attached.trans h.components h'.attached⟩
  obtain ⟨before, hb, hbefore⟩ := h.claims
  obtain ⟨after, ha, hafter⟩ := h'.claims
  refine ⟨before ++ after, by rw [ha, hb, List.append_assoc], fun c hc => ?_⟩
  exact (List.mem_append.1 hc).elim (hbefore c) (hafter c)

instance : Std.Refl (Adds session owner) := ⟨refl⟩

instance : Trans (Adds session owner) (Adds session owner) (Adds session owner) :=
  ⟨trans⟩

end Workshop.Adds

open Assembly Workshop

namespace Assembly

variable {session : SessionId} {owner : String}

theorem Leaves.adds {α : Type} {m : Assembly α} (hm : m.Leaves Supplied) :
    m.Leaves (Adds session owner) :=
  hm.mono .of_supplied

theorem claim_adds (handler : Handler) :
    (claim session handler owner).Leaves (Adds session owner) := by
  refine updateClaims_leaves fun {w claims} h =>
    ⟨?_, ClaimBook.single_of_claim h, Nat.le_refl _, .of_eq rfl⟩
  obtain ⟨-, rfl⟩ := ClaimBook.claim_ok h
  exact ⟨_, rfl, by simp⟩

theorem registerEndpoint_adds (registry : Registry) (spec : EndpointSpec)
    (input : Target) :
    (registerEndpoint session owner registry spec input).Leaves
      (Adds session owner) := by
  refine .bind (checkPoller_leaves spec input).adds fun _ => ?_
  have hkey : (newComponentKey >>= fun key =>
      pure (registry.add (.endpoint
        { key, id := spec.id, handler := spec.handler, input, output := none,
          lifecycle := spec.lifecycle, advice := spec.advice,
          poller := spec.poller }),
        ({ key, id := spec.id, handler := spec.handler, input, output := none,
           lifecycle := spec.lifecycle, advice := spec.advice,
           poller := spec.poller } : Endpoint))).Leaves (Adds session owner) :=
    .bind newComponentKey_leaves.adds fun _ => .pure _
  dsimp only
  split
  · exact .bind (claim_adds spec.handler) fun _ => hkey
  · exact hkey

end Assembly

namespace Builder

/-! ## Appending -/

theorem wire_adds (b : Builder) (spec : EndpointSpec) (input : ResolvedInput)
    (sides : List Registry) :
    (b.wire spec input sides).Leaves (Adds b.session b.flowId) := by
  have hs := b.sameFlow_ready input sides
  have hreg :
      (registerEndpoint (b.ready input sides).session (b.ready input sides).flowId
        (b.ready input sides).registry spec input.target).Leaves
        (Adds b.session b.flowId) := by
    rw [hs.flowId, hs.session]
    exact registerEndpoint_adds _ spec input.target
  exact .bind hreg fun _ => .pure _

theorem attach_adds (b : Builder) (spec : EndpointSpec) :
    (b.attach spec).Leaves (Adds b.session b.flowId) :=
  .bind (resolveInput_leaves b.cursor.channel spec.handler).adds
    fun {_ input _} _ =>
      .bind (checkPoller_leaves spec input.target).adds fun _ =>
        b.wire_adds spec input []

theorem bridge_adds (b : Builder) : b.bridge.Leaves (Adds b.session b.flowId) :=
  .bind newBridge_leaves.adds fun _ => b.attach_adds _

theorem channel_adds (b : Builder) (source : ChannelSource) :
    (b.channel source).Leaves (Adds b.session b.flowId) := by
  refine .bind (b.ensureOpen_leaves _).adds fun _ => ?_
  dsimp only
  split
  · exact .bind b.bridge_adds fun _ => .pure _
  · exact .bind (.pure b) fun _ => .pure _

theorem tapPoint_leaves (b : Builder) (attempted : String) :
    (b.tapPoint attempted).Leaves Supplied := by
  refine .bind (b.ensureOpen_leaves attempted) fun _ => ?_
  split
  · split
    · exact .pure _
    · exact .fail _
  · exact .fail _
  · exact .bind implicitChannel_leaves fun _ => .pure _

/-- A builder that goes on for the same flow adds for that flow. -/
theorem SameFlow.adds {α : Type} {b b₁ : Builder} {m : Assembly α}
    (h : b.SameFlow b₁) (hm : m.Leaves (Adds b₁.session b₁.flowId)) :
    m.Leaves (Adds b.session b.flowId) := by
  rwa [h.session, h.flowId] at hm

end Builder

/-! ## Branches -/

theorem Branch.addBridge_adds (br : Branch) (parent : Builder) (input : Channel) :
    (br.addBridge parent input).Leaves (Adds parent.session parent.flowId) :=
  .bind newBridge_leaves.adds fun _ => .bind (registerEndpoint_adds _ _ _) fun _ =>
    .pure _

theorem Branch.converge_adds (br : Branch) (parent : Builder) (merge : Channel) :
    (br.converge parent merge).Leaves (Adds parent.session parent.flowId) := by
  unfold Branch.converge
  split
  · exact .pure _
  · split
    · exact .pure _
    · exact .bind (br.addBridge_adds parent _) fun _ => .pure _
  · exact .pure _

theorem Branch.leaveOpen_adds (br : Branch) (parent : Builder) :
    (br.leaveOpen parent).Leaves (Adds parent.session parent.flowId) := by
  unfold Branch.leaveOpen
  split
  · split
    · exact .fail _
    · exact .pure _
  · exact .map (br.addBridge_adds parent _)
  · exact .pure _

namespace Builder

theorem leaveOpen_adds (b : Builder) (branches : List Branch) :
    (b.leaveOpen branches).Leaves (Adds b.session b.flowId) :=
  .mapM fun br _ => br.leaveOpen_adds b

theorem converge_adds (b : Builder) (branches : List Branch) (merge : Channel) :
    (b.converge branches merge).Leaves (Adds b.session b.flowId) :=
  .mapM fun br _ => br.converge_adds b merge

theorem reconcile_adds (b : Builder) (branches : List Branch)
    (default : Option DefaultOutput) :
    (b.reconcile branches default).Leaves (Adds b.session b.flowId) := by
  unfold reconcile
  split
  · exact .bind (mergeChannel_leaves branches).adds fun _ =>
      .bind (b.converge_adds branches _) fun _ => .pure _
  · exact .pure _

theorem absorbMerged_adds (b : Builder) (branches : List Branch)
    (merge : Option Channel) :
    (b.absorbMerged branches merge).Leaves (Adds b.session b.flowId) := by
  match merge with
  | none => exact .pure _
  | some merge => exact (b.mergedOn branches merge).bridge_adds

/-! ## Routers, fan-outs and scatters -/

theorem finishRoute_adds (b : Builder) (plan : RouterPlan) (parts : RouterParts)
    (branches : List Branch) :
    (b.finishRoute plan parts branches).Leaves (Adds b.session b.flowId) :=
  .bind (b.reconcile_adds branches parts.default) fun {_ r _} _ =>
    .bind (newHandler_leaves _).adds fun _ =>
      .bind (b.attach_adds _) fun {_ b₁ _} ha =>
        (SameFlow.of_covers fun _ => covers_attach ha).adds
          (b₁.absorbMerged_adds r.branches r.merge)

theorem finishRecipients_adds (b : Builder) (plan : RecipientsPlan)
    (parts : RecipientParts) (branches : List Branch) :
    (b.finishRecipients plan parts branches).Leaves (Adds b.session b.flowId) :=
  .bind (b.reconcile_adds branches parts.default) fun {_ r _} _ =>
    .bind (newHandler_leaves _).adds fun _ =>
      .bind (b.attach_adds _) fun {_ b₁ _} ha =>
        (SameFlow.of_covers fun _ => covers_attach ha).adds
          (b₁.absorbMerged_adds r.branches r.merge)

theorem openFanOut_adds (b : Builder) (channel : Channel) :
    (b.openFanOut channel).Leaves (Adds b.session b.flowId) := by
  unfold openFanOut
  split
  · exact .pure _
  · exact b.channel_adds _

theorem finishFanOut_adds (b : Builder) (subscribers : List Branch) :
    (b.finishFanOut subscribers).Leaves (Adds b.session b.flowId) :=
  .bind (b.leaveOpen_adds subscribers) fun _ => .pure _

theorem registerScatter_adds (b : Builder) (scattering : Scattering)
    (branches : List Branch) :
    (b.registerScatter scattering branches).Leaves (Adds b.session b.flowId) := by
  unfold registerScatter
  dsimp only
  split
  · exact .bind (newHandler_leaves _).adds fun _ =>
      .bind (attach_adds { b with
        registry := b.registry.add (.channel scattering.channel)
        cursor := { b.cursor with channel := some (.channel scattering.channel) } }
          _) fun _ => .pure _
  · exact .bind (.pure _) fun _ => .pure _

theorem finishScatterGather_adds (b : Builder) (plan : ScatterGatherPlan)
    (release : Release) (scattering : Scattering) (gather : Channel) :
    (b.finishScatterGather plan release scattering gather).Leaves
      (Adds b.session b.flowId) := by
  refine .bind (b.converge_adds scattering.branches gather) fun {_ branches _} _ =>
    .bind (newHandler_leaves _).adds fun _ =>
      .bind (newHandler_leaves _).adds fun _ =>
    .bind (b.attach_adds _) fun {_ b₁ _} ha => ?_
  have hattach : b.SameFlow b₁ := .of_covers fun _ => covers_attach ha
  refine .bind
    (hattach.adds
      (registerScatter_adds
        { b₁ with cursor := { b₁.cursor with tail := none, pending := none } }
        scattering branches)) fun {_ b₂ _} hs => ?_
  have hscatter : b₁.SameFlow b₂ := by
    have hsame := SameFlow.of_covers fun _ => covers_registerScatter hs
    exact ⟨hsame.session, hsame.flowId, hsame.nested⟩
  exact .bind
    ((hattach.trans hscatter).adds
      (attach_adds
        (continueFrom { b₂ with registry := b₂.registry.add (.channel gather) }
          (.channel gather)) _)) fun _ => .pure _

theorem closeImplicit_adds (b : Builder) :
    b.closeImplicit.Leaves (Adds b.session b.flowId) := by
  unfold closeImplicit
  split
  · split
    · split
      · exact .fail _
      · exact b.bridge_adds
    · exact .pure _
  · exact .pure _

/-- Finishing a flow, but for dropping the builder where that fails. -/
def conclude (b : Builder) : Assembly FlowGraph := do
  ensure b.checkEnds
  let b ← b.closeImplicit
  ensure b.checkSize
  let b := b.flushDeferred
  ensure b.registry.validate
  return b.toGraph

theorem finish_eq (b : Builder) : b.finish = b.guarded b.conclude := rfl

theorem conclude_adds (b : Builder) : b.conclude.Leaves (Adds b.session b.flowId) :=
  .bind (ensure_leaves _).adds fun _ => .bind b.closeImplicit_adds fun _ =>
    .bind (ensure_leaves _).adds fun _ =>
      .bind (ensure_leaves _).adds fun _ => .pure _

end Builder

end FlowAssembly
