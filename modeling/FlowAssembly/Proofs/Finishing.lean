import FlowAssembly.Proofs.Accounts
import FlowAssembly.Proofs.Forecast
import FlowAssembly.Proofs.Order

/-!
# What finishing a flow can fail with

Finishing checks the ends of a flow, closes it, checks its size, and checks
its order last. Only the last check can fail for the order, and what it looks
at is the order that the outlook of the flow tells.
-/

namespace FlowAssembly

open Assembly Workshop

/-- The error is for the order of a flow. -/
def FlowError.isOrder : FlowError → Bool
  | .adjacentChannels .. | .inputNotRegistered .. => true
  | _ => false

/-- The call was refused for the order of a flow. -/
def Refusal.isOrder : Refusal → Bool
  | .flow cause => cause.isOrder
  | .unknownName | .unsuitable => false

/-! ## The checks before the last one -/

theorem Registry.validate_eq_error {r : Registry} {cause : FlowError}
    (h : r.validate = .error cause) :
    (∃ a b, cause = .adjacentChannels a b ∧ Mark.crowded r.marks = true) ∨
    (∃ e c, cause = .inputNotRegistered e c ∧ Mark.misplaced r.marks = true) := by
  have hadjacent := adjacentChannels?_eq_none_iff r.components
  have hinput := unregisteredInput?_eq_none_iff [] r.components
  unfold validate at h
  split at h
  · next a b hf =>
      cases h
      refine .inl ⟨_, _, rfl, ?_⟩
      rw [← Bool.not_eq_false]
      exact fun hm => by simp [hadjacent.2 hm] at hf
  · split at h
    · next e c hf =>
        cases h
        refine .inr ⟨_, _, rfl, ?_⟩
        rw [← Bool.not_eq_false]
        exact fun hm => by simp [hinput.2 hm] at hf
    · cases h

namespace Builder

variable {b b₁ : Builder} {w w' : Workshop} {cause : Refusal}

theorem isOrder_checkEnds {cause : FlowError} (h : b.checkEnds = .error cause) :
    cause.isOrder = false := by
  unfold checkEnds at h
  split at h
  · cases h
    rfl
  · dsimp only at h
    split at h
    · cases h
      rfl
    · split at h
      · split at h
        · cases h
          rfl
        · cases h
      · cases h

theorem isOrder_checkSize {cause : FlowError} (h : b.checkSize = .error cause) :
    cause.isOrder = false := by
  unfold checkSize at h
  split at h
  · cases h
    rfl
  · cases h
    rfl
  · cases h

theorem isOrder_checkPoller {spec : EndpointSpec} {input : Target}
    (h : Fails (checkPoller spec input) w cause) :
    cause.isOrder = false := by
  unfold checkPoller at h
  split at h
  · split at h
    · cases h
    · rw [fails_fail.1 h]
      rfl
  · cases h

theorem not_fails_resolveInput {current : Option ChannelSource}
    {handler : Handler} :
    ¬ Fails (resolveInput current handler) w cause := by
  match current with
  | some (.channel _) | some (.named _) | some (.fixedSubscriber _) | none =>
      exact nofun

theorem isOrder_registerEndpoint {session : SessionId} {flowId : String}
    {registry : Registry} {spec : EndpointSpec} {input : Target}
    (h : Fails (registerEndpoint session flowId registry spec input) w cause) :
    cause.isOrder = false := by
  have hclaim : ∀ {w}, Fails (claim session spec.handler flowId) w cause →
      cause.isOrder = false := by
    intro w h
    obtain ⟨c, hc, rfl⟩ := fails_updateClaims.1 h
    unfold ClaimBook.claim at hc
    split at hc
    · cases hc
      rfl
    · cases hc
  unfold registerEndpoint at h
  simp only [fails_bind] at h
  rcases h with h | ⟨_, _, -, h⟩
  · exact isOrder_checkPoller h
  · split at h
    · rcases fails_bind.1 h with h | ⟨_, _, -, h⟩
      · exact hclaim h
      · cases h
    · cases h

theorem isOrder_wire {spec : EndpointSpec} {input : ResolvedInput}
    {sides : List Registry} (h : Fails (b.wire spec input sides) w cause) :
    cause.isOrder = false := by
  unfold wire at h
  rcases fails_bind.1 h with h | ⟨⟨registry, endpoint⟩, _, -, h⟩
  · exact isOrder_registerEndpoint h
  · cases h

theorem isOrder_bridge (h : Fails b.bridge w cause) : cause.isOrder = false := by
  rcases fails_bind.1 h with h | ⟨spec, w₁, -, h⟩
  · cases h
  · rcases fails_bind.1 h with h | ⟨input, w₂, -, h⟩
    · exact absurd h not_fails_resolveInput
    · rcases fails_bind.1 h with h | ⟨_, w₃, -, h⟩
      · exact isOrder_checkPoller h
      · exact isOrder_wire h

theorem isOrder_closeImplicit (h : Fails b.closeImplicit w cause) :
    cause.isOrder = false := by
  unfold closeImplicit at h
  split at h
  · split at h
    · split at h
      · rw [fails_fail.1 h]
        rfl
      · exact isOrder_bridge h
    · cases h
  · cases h

/-- Only the check of the closed flow fails for the order. -/
theorem of_fails_finish (h : Fails b.finish w cause) (ho : cause.isOrder = true) :
    ∃ b₁ w₁ c, Yields b.closeImplicit w b₁ w₁ ∧
      b₁.flushDeferred.registry.validate = .error c ∧
      cause = .flow c := by
  simp only [finish, fails_guarded, fails_bind, fails_ensure, yields_ensure,
    not_fails_pure, and_false, exists_false, or_false] at h
  rcases h with ⟨c, hc, rfl⟩ | ⟨_, _, ⟨-, rfl⟩, h⟩
  · rw [Refusal.isOrder, isOrder_checkEnds hc] at ho
    cases ho
  · rcases h with h | ⟨b₁, w₁, hclose, h⟩
    · rw [isOrder_closeImplicit h] at ho
      cases ho
    · rcases h with ⟨c, hc, rfl⟩ | ⟨_, _, ⟨-, rfl⟩, c, hc, rfl⟩
      · rw [Refusal.isOrder, isOrder_checkSize hc] at ho
        cases ho
      · exact ⟨b₁, _, c, hclose, hc, rfl⟩

/-! ## The order of a closed flow -/

variable {s : Sketch}

theorem Drawn.closes_implicit (hd : b.Drawn s) (hr : w.Room s.keys)
    (hy : Yields b.closeImplicit w b₁ w') :
    ∃ s₁, b₁.Drawn s₁ ∧ s₁.outlook.close = s.outlook.close := by
  rcases of_yields_closeImplicit hy with ⟨rfl, -, -⟩ | ⟨c, -, -, hy⟩
  · exact ⟨s, hd, rfl⟩
  · obtain ⟨s₁, hdrawn, hcloses, -⟩ :=
      hd.closes_attach (w := { w with nextHandler := w.nextHandler + 1 }) hr
        (of_yields_bridge hy)
    refine ⟨s₁, hdrawn, ?_⟩
    rw [hcloses.outlook hd.sound]
    simp [Outlook.close, Landing.isSqueezed]

/-- The order of a closed flow has the faults that its outlook tells, and no
others. -/
theorem Drawn.order_closed (hd : b.Drawn s) (hr : w.Room s.keys)
    (hy : Yields b.closeImplicit w b₁ w') :
    Mark.crowded b₁.flushDeferred.registry.marks = s.outlook.close.crowded ∧
    Mark.misplaced b₁.flushDeferred.registry.marks = s.outlook.misplaced := by
  obtain ⟨s₁, hdrawn, houtlook⟩ := hd.closes_implicit hr hy
  have hsound := hdrawn.sound.flushed
  have hcrowded := hsound.crowded_outlook
  have hmisplaced := hsound.misplaced_outlook
  rw [hdrawn.sound.outlook_flushed, hdrawn.sound.taps_flushed, List.any_nil,
    Bool.or_false] at hcrowded hmisplaced
  have hsame : s₁.outlook.close.misplaced = s.outlook.close.misplaced :=
    congrArg Outlook.misplaced houtlook
  rw [hdrawn.traced.marks_flushDeferred hdrawn.sound.distinct, ← hcrowded,
    ← hmisplaced, houtlook]
  exact ⟨rfl, hsame⟩

theorem Drawn.closed_apart_iff (hd : b.Drawn s) (hr : w.Room s.keys)
    (hy : Yields b.closeImplicit w b₁ w') :
    Apart b₁.flushDeferred.registry.components ↔
      s.outlook.close.crowded = false := by
  rw [FlowAssembly.apart_iff, ← (hd.order_closed hr hy).1]
  rfl

theorem Drawn.closed_ordered_iff (hd : b.Drawn s) (hr : w.Room s.keys)
    (hy : Yields b.closeImplicit w b₁ w') :
    Ordered b₁.flushDeferred.registry.components ↔ s.outlook.misplaced = false := by
  rw [FlowAssembly.ordered_iff, ← (hd.order_closed hr hy).2]
  rfl

/-- A flow is refused for its order only where the outlook tells the fault. -/
theorem Drawn.outlook_of_fails (hd : b.Drawn s) (hr : w.Room s.keys)
    (h : Fails b.finish w cause) :
    (∀ a c, cause = .flow (.adjacentChannels a c) →
      s.outlook.close.crowded = true) ∧
    ∀ e c, cause = .flow (.inputNotRegistered e c) →
      s.outlook.misplaced = true := by
  refine ⟨fun a c hcause => ?_, fun e c hcause => ?_⟩
  · subst hcause
    obtain ⟨b₁, w₁, cause, hclose, hv, heq⟩ := of_fails_finish h rfl
    cases heq
    rcases Registry.validate_eq_error hv with ⟨_, _, -, hcrowded⟩ | ⟨_, _, hne, -⟩
    · rw [← (hd.order_closed hr hclose).1, hcrowded]
    · cases hne
  · subst hcause
    obtain ⟨b₁, w₁, cause, hclose, hv, heq⟩ := of_fails_finish h rfl
    cases heq
    rcases Registry.validate_eq_error hv with ⟨_, _, hne, -⟩ | ⟨_, _, -, hmisplaced⟩
    · cases hne
    · rw [← (hd.order_closed hr hclose).2, hmisplaced]

end Builder

end FlowAssembly
