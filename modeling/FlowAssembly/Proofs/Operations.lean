import FlowAssembly.Proofs.Making
import FlowAssembly.Proofs.RegistryLaws

/-!
# What a call that answers has done

For each operation of a builder, all that is known when it answers: the
builder that comes out, in terms of the one that went in, and the parts of the
workshop that it read or changed. Proofs about calls start from these facts
and open no operation themselves.
-/

namespace FlowAssembly

open Assembly

namespace Assembly

theorem eq_of_yields_checkPoller {spec : EndpointSpec} {input : Target}
    {w w' : Workshop} {u : Unit} (h : Yields (checkPoller spec input) w u w') :
    w' = w := by
  unfold checkPoller at h
  split at h
  · split at h
    · exact (yields_pure.1 h).2
    · exact absurd h not_yields_fail
  · exact (yields_pure.1 h).2

/-- An endpoint that was registered has a key of its own, and its handler was
claimed if it replies. -/
theorem of_yields_registerEndpoint {session : SessionId} {flowId : String}
    {registry registry' : Registry} {spec : EndpointSpec} {input : Target}
    {e : Endpoint} {w w' : Workshop}
    (h : Yields (registerEndpoint session flowId registry spec input) w
      (registry', e) w') :
    registry' = registry.add (.endpoint e) ∧
      e = { key := ⟨w.nextComponent⟩, id := spec.id, handler := spec.handler,
            input, output := none,
            lifecycle := spec.lifecycle, advice := spec.advice, poller :=
              spec.poller } ∧
      w'.nextComponent = w.nextComponent + 1 ∧
      (spec.handler.producesReplies = true →
        w.claims.claim session spec.handler.tag flowId = .ok w'.claims) ∧
      (spec.handler.producesReplies = false → w'.claims = w.claims) := by
  rw [registerEndpoint, yields_bind] at h
  obtain ⟨_, w₁, hp, h⟩ := h
  obtain rfl := eq_of_yields_checkPoller hp
  dsimp only at h
  split at h
  · next hprod =>
      rw [yields_bind] at h
      obtain ⟨_, w₂, hc, h⟩ := h
      obtain ⟨claims, hclaim, rfl⟩ := yields_updateClaims.1 hc
      simp only [yields_bind, yields_newComponentKey, yields_pure] at h
      obtain ⟨_, _, ⟨rfl, rfl⟩, hpair, rfl⟩ := h
      cases hpair
      exact ⟨rfl, rfl, rfl, fun _ => hclaim, fun hf => absurd hf (by simp [hprod])⟩
  · next hprod =>
      simp only [yields_bind, yields_newComponentKey, yields_pure] at h
      obtain ⟨_, _, ⟨rfl, rfl⟩, hpair, rfl⟩ := h
      cases hpair
      exact ⟨rfl, rfl, rfl, fun ht => absurd ht hprod, fun _ => rfl⟩

/-- What an endpoint reads from is the current channel, or a channel that was
made for it. -/
theorem of_yields_resolveInput {current : Option ChannelSource} {handler : Handler}
    {input : ResolvedInput} {w w' : Workshop}
    (h : Yields (resolveInput current handler) w input w') :
    (∃ c, current = some (.channel c) ∧ input = ⟨.channel c, none⟩ ∧ w' = w) ∨
    (∃ name, current = some (.named name) ∧ input = ⟨.named name, none⟩ ∧ w' = w) ∨
    (∃ c, ((∃ id, current = some (.fixedSubscriber id)) ∨ current = none) ∧
      input = ⟨.channel c, some c⟩ ∧ c.key = ⟨w.nextComponent⟩ ∧
      w' = { w with nextComponent := w.nextComponent + 1 }) := by
  match current with
  | some (.channel c) =>
      obtain ⟨rfl, rfl⟩ := yields_pure.1 h
      exact .inl ⟨c, rfl, rfl, rfl⟩
  | some (.named name) =>
      obtain ⟨rfl, rfl⟩ := yields_pure.1 h
      exact .inr (.inl ⟨name, rfl, rfl, rfl⟩)
  | some (.fixedSubscriber id) =>
      simp only [resolveInput, yields_bind, yields_boundChannel, yields_pure] at h
      obtain ⟨c, _, ⟨rfl, rfl⟩, rfl, rfl⟩ := h
      exact .inr (.inr ⟨_, .inl ⟨id, rfl⟩, rfl, rfl, rfl⟩)
  | none =>
      simp only [resolveInput, yields_bind, yields_implicitChannel, yields_pure]
        at h
      obtain ⟨c, _, ⟨rfl, rfl⟩, rfl, rfl⟩ := h
      exact .inr (.inr ⟨_, .inr rfl, rfl, rfl, rfl⟩)

end Assembly

namespace Builder

/-- Two builders assemble the same flow: in one session, under one id, and
both or neither of them nested. -/
structure SameFlow (b b' : Builder) : Prop where
  session : b'.session = b.session
  flowId : b'.flowId = b.flowId
  nested : b'.nested = b.nested

namespace SameFlow

variable {b b' b'' : Builder}

theorem refl (b : Builder) : b.SameFlow b := ⟨rfl, rfl, rfl⟩

theorem trans (h : b.SameFlow b') (h' : b'.SameFlow b'') : b.SameFlow b'' :=
  ⟨h'.session.trans h.session, h'.flowId.trans h.flowId, h'.nested.trans h.nested⟩

end SameFlow

/-! ## Parts that cannot fail -/

theorem sameFlow_bindPending (b : Builder) (target : Target) :
    b.SameFlow (b.bindPending target) := by
  unfold bindPending
  split
  · exact ⟨rfl, rfl, rfl⟩
  · exact .refl b

theorem sameFlow_flushDeferred (b : Builder) : b.SameFlow b.flushDeferred := by
  unfold flushDeferred
  split
  · exact .refl b
  · exact ⟨rfl, rfl, rfl⟩

theorem sameFlow_placeSides (b : Builder) (input : Target) (sides : List Registry) :
    b.SameFlow (b.placeSides input sides) := by
  unfold placeSides
  split
  · exact .refl b
  · exact ⟨rfl, rfl, rfl⟩

/-- The builder as it stands when an endpoint is registered: behind its side
flows and behind the channel made for it, and with what came before bound to
its input. -/
def ready (b : Builder) (input : ResolvedInput) (sides : List Registry) : Builder :=
  let b := { b with cursor := { b.cursor with channel := none } }
  let b := b.placeSides input.target sides
  let b := match input.made with
    | some channel => { b with registry := b.registry.add (.channel channel) }
    | none => b
  b.bindPending input.target

theorem sameFlow_ready (b : Builder) (input : ResolvedInput)
    (sides : List Registry) :
    b.SameFlow (b.ready input sides) := by
  have hp := sameFlow_placeSides
    { b with cursor := { b.cursor with channel := none } } input.target sides
  unfold ready
  dsimp only
  generalize placeSides { b with cursor := { b.cursor with channel := none } }
    input.target sides = p at hp ⊢
  have hp : b.SameFlow p := ⟨hp.session, hp.flowId, hp.nested⟩
  split
  · next c hm =>
      have hb := sameFlow_bindPending
        { p with registry := p.registry.add (.channel c) } input.target
      exact hp.trans ⟨hb.session, hb.flowId, hb.nested⟩
  · next hm => exact hp.trans (sameFlow_bindPending p input.target)

/-- The builder behind a channel, a name or a marker that was appended where
none was current. -/
def appended (b : Builder) (source : ChannelSource) : Builder :=
  let b := match source with
    | .channel channel => { b with registry := b.registry.add (.channel channel) }
    | _ => b
  let b := match source.target? with
    | some target => b.bindPending target
    | none => b
  b.continueFrom source

theorem sameFlow_appended (b : Builder) (source : ChannelSource) :
    b.SameFlow (b.appended source) := by
  match source with
  | .channel c =>
      have hb := sameFlow_bindPending
        { b with registry := b.registry.add (.channel c) } (.channel c)
      exact ⟨hb.session, hb.flowId, hb.nested⟩
  | .named name =>
      have hb := sameFlow_bindPending b (.named name)
      exact ⟨hb.session, hb.flowId, hb.nested⟩
  | .fixedSubscriber id => exact ⟨rfl, rfl, rfl⟩

/-! ## Appending -/

/-- A wired endpoint stands behind everything that was readied for it, and
held-back taps follow it. -/
theorem of_yields_wire {b b' : Builder} {spec : EndpointSpec}
    {input : ResolvedInput} {sides : List Registry} {w w' : Workshop}
    (h : Yields (b.wire spec input sides) w b' w') :
    ∃ e,
      Yields (registerEndpoint b.session b.flowId (b.ready input sides).registry
        spec input.target) w ((b.ready input sides).registry.add (.endpoint e),
          e) w' ∧
      b.SameFlow b' ∧
      b'.registry = (flushDeferred { b.ready input sides with
        registry := (b.ready input sides).registry.add (.endpoint e) }).registry ∧
      b'.cursor.deferred = [] ∧
        b'.cursor.channel = (b.ready input sides).cursor.channel := by
  have hs := b.sameFlow_ready input sides
  have h : Yields (do
      let r ← registerEndpoint (b.ready input sides).session
        (b.ready input sides).flowId (b.ready input sides).registry
        spec input.target
      let endpoint := r.2
      let b := flushDeferred { b.ready input sides with registry := r.1 }
      let produces := spec.handler.producesReplies
      let pending : PendingOutput :=
        { component := endpoint.key, owner := endpoint.label,
          requiresReply := spec.handler.requiresReply }
      return { b with
        cursor := { b.cursor with
          tail := some ⟨endpoint.label, produces⟩
          pending := if produces then some pending else none } } :
            Assembly Builder) w b' w' := h
  rw [hs.session, hs.flowId] at h
  simp only [yields_bind, yields_pure] at h
  obtain ⟨⟨registry, e⟩, w₁, hreg, rfl, rfl⟩ := h
  obtain ⟨rfl, -⟩ := of_yields_registerEndpoint hreg
  refine ⟨e, hreg, ?_, rfl, ?_, ?_⟩
  · have hf := sameFlow_flushDeferred { b.ready input sides with
      registry := (b.ready input sides).registry.add (.endpoint e) }
    exact hs.trans ⟨hf.session, hf.flowId, hf.nested⟩
  · show (flushDeferred _).cursor.deferred = []
    unfold flushDeferred
    split
    · next hd => exact hd
    · rfl
  · show (flushDeferred _).cursor.channel = _
    unfold flushDeferred
    split
    · rfl
    · rfl

theorem of_yields_attach {b b' : Builder} {spec : EndpointSpec} {w w' : Workshop}
    (h : Yields (b.attach spec) w b' w') :
    ∃ input w₁, Yields (resolveInput b.cursor.channel spec.handler) w input w₁ ∧
      Yields (b.wire spec input []) w₁ b' w' := by
  simp only [attach, yields_bind] at h
  obtain ⟨input, w₁, hi, _, w₂, hp, hw⟩ := h
  obtain rfl := eq_of_yields_checkPoller hp
  exact ⟨input, _, hi, hw⟩

theorem of_yields_bridge {b b' : Builder} {w w' : Workshop}
    (h : Yields b.bridge w b' w') :
    Yields (b.attach { handler := ⟨⟨w.nextHandler⟩, .bridge⟩ }) { w with
      nextHandler := w.nextHandler + 1 } b' w' := by
  simp only [bridge, newBridge, yields_bind, yields_newHandler, yields_pure] at h
  obtain ⟨_, _, ⟨_, _, ⟨rfl, rfl⟩, rfl, rfl⟩, h⟩ := h
  exact h

theorem of_yields_channel {b b' : Builder} {source : ChannelSource}
    {w w' : Workshop} (h : Yields (b.channel source) w b' w') :
    ∃ b₁,
      (b.cursor.channel ≠ none ∧ Yields b.bridge w b₁ w' ∨ b.cursor.channel = none ∧
        b₁ = b ∧ w' = w) ∧
      b' = b₁.appended source := by
  rw [channel, yields_bind] at h
  obtain ⟨_, w₁, ho, h⟩ := h
  obtain ⟨-, rfl⟩ := yields_ensureOpen.1 ho
  dsimp only at h
  split at h
  · next hc =>
      rw [yields_bind] at h
      obtain ⟨b₁, w₂, hb, h⟩ := h
      obtain ⟨rfl, rfl⟩ := yields_pure.1 h
      exact ⟨b₁, .inl ⟨Option.isSome_iff_ne_none.1 hc, hb⟩, rfl⟩
  · next hc =>
      rw [yields_bind] at h
      obtain ⟨b₁, w₂, hb, h⟩ := h
      obtain ⟨rfl, rfl⟩ := yields_pure.1 hb
      obtain ⟨rfl, rfl⟩ := yields_pure.1 h
      exact ⟨b₁, .inr ⟨by simpa using hc, rfl, rfl⟩, rfl⟩

/-- A tap point is the current channel, or an implicit channel that was made
where there was none. -/
theorem of_yields_tapPoint {b b' : Builder} {attempted : String} {c : Channel}
    {w w' : Workshop} (h : Yields (b.tapPoint attempted) w (b', c) w') :
    (b.cursor.channel = some (.channel c) ∧ b' = b ∧ w' = w) ∨
    (b.cursor.channel = none ∧ b' = b.appended (.channel c) ∧
      c.key = ⟨w.nextComponent⟩ ∧
      w' = { w with nextComponent := w.nextComponent + 1 }) := by
  rw [tapPoint, yields_bind] at h
  obtain ⟨_, w₁, ho, h⟩ := h
  obtain ⟨-, rfl⟩ := yields_ensureOpen.1 ho
  split at h
  · next c' hc =>
      split at h
      · obtain ⟨hpair, rfl⟩ := yields_pure.1 h
        cases hpair
        exact .inl ⟨hc, rfl, rfl⟩
      · exact absurd h not_yields_fail
  · exact absurd h not_yields_fail
  · next hc =>
      simp only [yields_bind, yields_implicitChannel, yields_pure] at h
      obtain ⟨_, _, ⟨rfl, rfl⟩, hpair, rfl⟩ := h
      cases hpair
      exact .inr ⟨hc, rfl, rfl, rfl⟩

theorem of_yields_intercept {b b' : Builder} {interceptor : Interceptor}
    {w w' : Workshop} (h : Yields (b.intercept interceptor) w b' w') :
    ∃ c w₁, Yields (b.tapPoint interceptor.label) w (b', c) w₁ ∧
      w' = { w₁ with attached := w₁.attached ++ [(c.key, interceptor)] } := by
  simp only [intercept, yields_bind, yields_addInterceptor, yields_pure] at h
  obtain ⟨⟨b₁, c⟩, w₁, ht, _, _, ⟨-, rfl⟩, rfl, rfl⟩ := h
  exact ⟨c, w₁, ht, rfl⟩

end Builder

/-! ## Branches -/

namespace Branch

/-- A bridge in a branch reads the channel that it was put behind. -/
theorem of_yields_addBridge {br br' : Branch} {parent : Builder} {input : Channel}
    {key : ComponentKey} {w w' : Workshop}
    (h : Yields (br.addBridge parent input) w (br', key) w') :
    ∃ e,
      Yields
        (registerEndpoint parent.session parent.flowId br.registry
          { handler := ⟨⟨w.nextHandler⟩, .bridge⟩ } (.channel input)) { w with
            nextHandler := w.nextHandler + 1 } (br.registry.add (.endpoint e),
              e) w' ∧
      br' = ⟨br.registry.add (.endpoint e), .closed⟩ ∧ key = e.key := by
  simp only [addBridge, newBridge, yields_bind, yields_newHandler, yields_pure] at h
  obtain ⟨_, _, ⟨_, _, ⟨rfl, rfl⟩, rfl, rfl⟩, ⟨registry, e⟩, w₁, hreg,
    hpair, rfl⟩ := h
  obtain ⟨rfl, -⟩ := of_yields_registerEndpoint hreg
  cases hpair
  exact ⟨e, hreg, rfl, rfl⟩

/-- Three ways to converge: a pending output is bound to the merge channel,
the merge channel itself needs nothing, and any other bare channel gets a
bridge that writes to the merge channel. -/
theorem of_yields_converge {br br' : Branch} {parent : Builder} {merge : Channel}
    {w w' : Workshop} (h : Yields (br.converge parent merge) w br' w') :
    (∃ output, br.ending = .pending output ∧ w' = w ∧
      br' = ⟨br.registry.bindOutput output.component (.channel merge), .closed⟩) ∨
    (br.ending = .closed ∧ w' = w ∧ br' = br) ∨
    (∃ last, br.ending = .channel last ∧ last.key = merge.key ∧ w' = w ∧
      br' = ⟨br.registry, .closed⟩) ∨
    (∃ last linked key, br.ending = .channel last ∧ last.key ≠ merge.key ∧
      Yields (br.addBridge parent last) w (linked, key) w' ∧
      br' = ⟨linked.registry.bindOutput key (.channel merge), linked.ending⟩) := by
  unfold converge at h
  split at h
  · next output he =>
      obtain ⟨rfl, rfl⟩ := yields_pure.1 h
      exact .inl ⟨output, he, rfl, rfl⟩
  · next last he =>
      split at h
      · next hk =>
          obtain ⟨rfl, rfl⟩ := yields_pure.1 h
          exact .inr (.inr (.inl ⟨last, he, hk, rfl, rfl⟩))
      · next hk =>
          simp only [yields_bind, yields_pure] at h
          obtain ⟨⟨linked, key⟩, _, ha, rfl, rfl⟩ := h
          exact .inr (.inr (.inr ⟨last, linked, key, he, hk, ha, rfl⟩))
  · next he =>
      obtain ⟨rfl, rfl⟩ := yields_pure.1 h
      exact .inr (.inl ⟨he, rfl, rfl⟩)

/-- A branch that is left open stays as it is, but a bare channel gets a
bridge that reads it. -/
theorem of_yields_leaveOpen {br br' : Branch} {parent : Builder} {w w' : Workshop}
    (h : Yields (br.leaveOpen parent) w br' w') :
    (br.channel? = none ∧ w' = w ∧ br' = br) ∨
    (∃ last key, br.ending = .channel last ∧
      Yields (br.addBridge parent last) w (br', key) w') := by
  unfold leaveOpen at h
  split at h
  · next output he =>
      split at h
      · exact absurd h not_yields_fail
      · obtain ⟨rfl, rfl⟩ := yields_pure.1 h
        exact .inl ⟨by simp [channel?, he], rfl, rfl⟩
  · next last he =>
      obtain ⟨⟨br₁, key⟩, ha, rfl⟩ := yields_map.1 h
      exact .inr ⟨last, key, he, ha⟩
  · next he =>
      obtain ⟨rfl, rfl⟩ := yields_pure.1 h
      exact .inl ⟨by simp [channel?, he], rfl, rfl⟩

end Branch

namespace Builder

/-- A nested builder that ends as a branch hands over its registry with the
held-back taps in it. -/
theorem of_yields_intoBranch {b : Builder} (hn : b.nested = true) {br : Branch}
    {w w' : Workshop} (h : Yields b.intoBranch w br w') :
    w' = w ∧ br.registry = b.flushDeferred.registry ∧
    ((∃ output, br.ending = .pending output ∧
        b.flushDeferred.cursor.pending = some output) ∨
      (∃ c, br.ending = .channel c ∧ b.flushDeferred.cursor.pending = none ∧
        b.flushDeferred.cursor.channel = some (.channel c)) ∨
      (br.ending = .closed ∧
        ∀ c, b.flushDeferred.cursor.channel ≠ some (.channel c))) := by
  rw [intoBranch, yields_bind] at h
  obtain ⟨_, w₁, hd, h⟩ := h
  obtain rfl :=
    (yields_discard_of_nested ((b.sameFlow_flushDeferred).nested.trans hn)).1 hd
  split at h
  · exact absurd h not_yields_fail
  · next output hp hc =>
      obtain ⟨rfl, rfl⟩ := yields_pure.1 h
      exact ⟨rfl, rfl, .inl ⟨output, rfl, hp⟩⟩
  · next c hp hc =>
      obtain ⟨rfl, rfl⟩ := yields_pure.1 h
      exact ⟨rfl, rfl, .inr (.inl ⟨c, rfl, hp, hc⟩)⟩
  · next hp hf hc =>
      obtain ⟨rfl, rfl⟩ := yields_pure.1 h
      exact ⟨rfl, rfl, .inr (.inr ⟨rfl, fun c hcc => hc c hcc⟩)⟩

theorem of_yields_mergeChannel {branches : List Branch} {merge : Channel}
    {w w' : Workshop} (h : Yields (mergeChannel branches) w merge w') :
    (branches.findSome? Branch.channel? = some merge ∧ w' = w) ∨
    (branches.findSome? Branch.channel? = none ∧ merge.key = ⟨w.nextComponent⟩ ∧
      w' = { w with nextComponent := w.nextComponent + 1 }) := by
  unfold mergeChannel at h
  split at h
  · next c hc =>
      obtain ⟨rfl, rfl⟩ := yields_pure.1 h
      exact .inl ⟨hc, rfl⟩
  · next hc =>
      obtain ⟨rfl, rfl⟩ := yields_implicitChannel.1 h
      exact .inr ⟨hc, rfl, rfl⟩

/-- Either all branches converge on a merge channel, or they are all closed
and none is needed. -/
theorem of_yields_reconcile {b : Builder} {branches : List Branch}
    {default : Option DefaultOutput} {r : Reconciled} {w w' : Workshop}
    (h : Yields (b.reconcile branches default) w r w') :
    (∃ merge w₁, Yields (mergeChannel branches) w merge w₁ ∧
      YieldsAll (fun br => br.converge b merge) w₁ branches r.branches w' ∧
      r.merge = some merge) ∨
    ((∀ br ∈ branches, br.ending = .closed) ∧ r.branches = branches ∧
      r.merge = none ∧ w' = w) := by
  unfold reconcile at h
  split at h
  · simp only [yields_bind, yields_pure] at h
    obtain ⟨merge, w₁, hm, branches', _, hc, rfl, rfl⟩ := h
    exact .inl ⟨merge, w₁, hm, yieldsAll_of_mapM hc, rfl⟩
  · next hopen =>
      obtain ⟨rfl, rfl⟩ := yields_pure.1 h
      refine .inr ⟨fun br hbr => ?_, rfl, rfl, rfl⟩
      have hnot : ¬ branches.any Branch.isOpen = true := fun ha => hopen (.inr ha)
      simp only [List.any_eq_true, not_exists, not_and] at hnot
      simpa [Branch.isOpen] using hnot br hbr

/-- The builder once the merge channel stands behind its branches, current and
with nothing behind it. -/
def mergedOn (b : Builder) (branches : List Branch) (merge : Channel) : Builder :=
  let b := b.absorb branches
  continueFrom { b with
    registry := if b.registry.contains merge.key
      then b.registry.relocateToEnd merge.key
      else b.registry.add (.channel merge) } (.channel merge)

theorem of_yields_absorbMerged {b b' : Builder} {branches : List Branch}
    {merge : Option Channel} {w w' : Workshop}
    (h : Yields (b.absorbMerged branches merge) w b' w') :
    (merge = none ∧ b' = b.absorb branches ∧ w' = w) ∨
    (∃ m, merge = some m ∧ Yields (b.mergedOn branches m).bridge w b' w') := by
  unfold absorbMerged at h
  match merge with
  | none =>
      obtain ⟨rfl, rfl⟩ := yields_pure.1 h
      exact .inl ⟨rfl, rfl, rfl⟩
  | some m => exact .inr ⟨m, rfl, h⟩

/-! ## Routers, fan-outs and taps -/

/-- A router whose branches are assembled: they converge, then the router
itself is appended, then they follow it. -/
def Routed (b : Builder) (branches : List Branch) (w : Workshop) (b' : Builder)
    (w' : Workshop) : Prop :=
  ∃ (default : Option DefaultOutput) (r : Reconciled) (w₁ : Workshop)
    (spec : EndpointSpec) (b₁ : Builder) (w₂ : Workshop),
    Yields (b.reconcile branches default) w r w₁ ∧
    Yields (b.attach spec) { w₁ with nextHandler := w₁.nextHandler + 1 } b₁ w₂ ∧
    Yields (b₁.absorbMerged r.branches r.merge) w₂ b' w'

theorem of_yields_finishRoute {b b' : Builder} {plan : RouterPlan}
    {parts : RouterParts} {branches : List Branch} {w w' : Workshop}
    (h : Yields (b.finishRoute plan parts branches) w b' w') :
    b.Routed branches w b' w' := by
  simp only [finishRoute, yields_bind, yields_newHandler] at h
  obtain ⟨r, w₁, hr, _, _, ⟨rfl, rfl⟩, b₁, w₂, ha, hm⟩ := h
  exact ⟨_, r, w₁, _, b₁, w₂, hr, ha, hm⟩

theorem of_yields_finishRecipients {b b' : Builder} {plan : RecipientsPlan}
    {parts : RecipientParts} {branches : List Branch} {w w' : Workshop}
    (h : Yields (b.finishRecipients plan parts branches) w b' w') :
    b.Routed branches w b' w' := by
  simp only [finishRecipients, yields_bind, yields_newHandler] at h
  obtain ⟨r, w₁, hr, _, _, ⟨rfl, rfl⟩, b₁, w₂, ha, hm⟩ := h
  exact ⟨_, r, w₁, _, b₁, w₂, hr, ha, hm⟩

theorem of_yields_fanOutChannel {plan : FanOutPlan} {given : Option Channel}
    {c : Channel} {w w' : Workshop} (h : Yields (fanOutChannel plan given) w c w') :
    (given = some c ∧ w' = w) ∨
    (given = none ∧ c.key = ⟨w.nextComponent⟩ ∧
      w' = { w with nextComponent := w.nextComponent + 1 }) := by
  match given with
  | some c =>
      obtain ⟨rfl, rfl⟩ := yields_pure.1 h
      exact .inl ⟨rfl, rfl⟩
  | none =>
      obtain ⟨rfl, rfl⟩ := yields_explicitChannel.1 h
      exact .inr ⟨rfl, rfl, rfl⟩

theorem of_yields_openFanOut {b b' : Builder} {c : Channel} {w w' : Workshop}
    (h : Yields (b.openFanOut c) w b' w') :
    (b.currentKey? = some c.key ∧ b' = b ∧ w' = w) ∨
      (b.currentKey? ≠ some c.key ∧ Yields (b.channel (.channel c)) w b' w') := by
  unfold openFanOut at h
  split at h
  · next hc =>
      obtain ⟨rfl, rfl⟩ := yields_pure.1 h
      exact .inl ⟨hc, rfl, rfl⟩
  · next hc => exact .inr ⟨hc, h⟩

theorem of_yields_finishFanOut {b b' : Builder} {subscribers : List Branch}
    {w w' : Workshop} (h : Yields (b.finishFanOut subscribers) w b' w') :
    ∃ closed, YieldsAll (fun br => br.leaveOpen b) w subscribers closed w' ∧
      b' = b.absorb closed := by
  simp only [finishFanOut, leaveOpen, yields_bind, yields_pure] at h
  obtain ⟨closed, _, hl, rfl, rfl⟩ := h
  exact ⟨closed, yieldsAll_of_mapM hl, rfl⟩

theorem of_yields_finishTap {b b' : Builder} {c : Channel} {tap : WireTap}
    {flow : List Branch} {w w' : Workshop}
    (h : Yields (b.finishTap c tap flow) w b' w') :
    ∃ closed w₁, YieldsAll (fun br => br.leaveOpen b) w flow closed w₁ ∧
      w' = { w₁ with attached := w₁.attached ++ [(c.key, .wireTap tap)] } ∧
      b' = { b with cursor := { b.cursor with
        deferred := b.cursor.deferred ++ closed.map Branch.registry } } := by
  simp only [finishTap, leaveOpen, yields_bind, yields_addInterceptor, yields_pure]
    at h
  obtain ⟨closed, w₁, hl, _, _, ⟨-, rfl⟩, rfl, rfl⟩ := h
  exact ⟨closed, w₁, yieldsAll_of_mapM hl, rfl, rfl⟩

/-! ## Scatter-gather -/

theorem of_yields_registerScatter {b b' : Builder} {scattering : Scattering}
    {branches : List Branch} {w w' : Workshop}
    (h : Yields (b.registerScatter scattering branches) w b' w') :
    ∃ b₁, b' = b₁.absorb branches ∧
      ((scattering.list = none ∧ w' = w ∧
          b₁ = { b with
            registry := b.registry.add (.channel scattering.channel) }) ∨
        (∃ spec, scattering.list ≠ none ∧ Yields (attach { b with
            registry := b.registry.add (.channel scattering.channel)
            cursor :=
              { b.cursor with channel := some (.channel scattering.channel) } }
              spec)
            { w with nextHandler := w.nextHandler + 1 } b₁ w')) := by
  unfold registerScatter at h
  dsimp only at h
  split at h
  · next list id hl =>
      simp only [yields_bind, yields_newHandler, yields_pure] at h
      obtain ⟨_, _, ⟨rfl, rfl⟩, b₁, _, ha, rfl, rfl⟩ := h
      exact ⟨b₁, rfl, .inr ⟨_, by simp [hl], ha⟩⟩
  · next hl =>
      simp only [yields_bind, yields_pure] at h
      obtain ⟨_, _, ⟨rfl, rfl⟩, rfl, rfl⟩ := h
      exact ⟨_, rfl, .inl ⟨hl, rfl, rfl⟩⟩

theorem of_yields_finishScatterGather {b b' : Builder} {plan : ScatterGatherPlan}
    {release : Release} {scattering : Scattering} {gather : Channel}
    {w w' : Workshop}
    (h : Yields (b.finishScatterGather plan release scattering gather) w b' w') :
    ∃ branches w₁ spec b₁ w₂ b₂ w₃ gatherer b₃,
      YieldsAll (fun br => br.converge b gather) w scattering.branches branches w₁ ∧
      Yields (b.attach spec) { w₁ with nextHandler := w₁.nextHandler + 1 + 1 }
        b₁ w₂ ∧
      Yields
        (registerScatter { b₁ with
            cursor := { b₁.cursor with tail := none, pending := none } } scattering
          branches) w₂ b₂ w₃ ∧
      Yields
        (attach
          (continueFrom { b₂ with registry := b₂.registry.add (.channel gather) }
            (.channel gather)) gatherer) w₃ b₃ w' ∧
      b' = { b₃ with cursor := { b₃.cursor with
        tail := b₁.cursor.tail, pending := b₁.cursor.pending, channel :=
          none } } := by
  simp only [finishScatterGather, converge, yields_bind, yields_newHandler,
    yields_pure] at h
  obtain ⟨branches, w₁, hc, _, _, ⟨rfl, rfl⟩, _, _, ⟨rfl, rfl⟩, b₁, w₂, ha, b₂,
    w₃, hs, b₃, _, hg, rfl, rfl⟩ := h
  exact ⟨branches, w₁, _, b₁, w₂, b₂, w₃, _, b₃, yieldsAll_of_mapM hc,
    ha, hs, hg, rfl⟩

end Builder

end FlowAssembly
