import FlowAssembly.Proofs.Accounts
import FlowAssembly.Proofs.Stages

/-!
# What a call leaves of the claims of others

A call of a builder works on the claims of its own flow. Whether it answers or
fails, and however much of it was done when it failed, no other flow loses a
claim, and no handler comes to be claimed twice in a session (`Spares`). A
failing call also drops its builder, which is why nothing is said about the
claims of the flow itself.
-/

namespace FlowAssembly

/-- Only the flows of the given id may lose claims, and no handler is claimed
twice in a session if none was. -/
structure Workshop.Spares (owner : String) (w w' : Workshop) : Prop where
  single : w.claims.Single → w'.claims.Single
  others : ∀ session other handler, other ≠ owner →
    w.claims.owned session other handler ≤ w'.claims.owned session other handler

namespace Workshop.Spares

variable {owner : String}

instance : Std.Refl (Spares owner) := ⟨fun _ => ⟨id, fun _ _ _ _ => Nat.le_refl _⟩⟩

instance : Trans (Spares owner) (Spares owner) (Spares owner) :=
  ⟨fun h h' => ⟨fun hs => h'.single (h.single hs), fun session other handler hne =>
    Nat.le_trans (h.others session other handler hne)
      (h'.others session other handler hne)⟩⟩

/-- Who only adds takes nothing from anyone. -/
theorem of_adds {session : SessionId} {w w' : Workshop}
    (h : w.Adds session owner w') : Spares owner w w' := by
  refine ⟨h.single, fun _ _ _ _ => ?_⟩
  obtain ⟨claimed, hc, -⟩ := h.claims
  rw [ClaimBook.owned, ClaimBook.owned, hc, List.countP_append]
  exact Nat.le_add_right _ _

theorem of_claims {w w' : Workshop} (h : w'.claims = w.claims) :
    Spares owner w w' :=
  ⟨fun hs => h ▸ hs, fun _ _ _ _ => Nat.le_of_eq (by rw [h])⟩

end Workshop.Spares

open Assembly Workshop

namespace Assembly

variable {α : Type} {owner : String}

theorem Leaves.spares {session : SessionId} {m : Assembly α}
    (hm : m.Leaves (Adds session owner)) :
    m.Leaves (Spares owner) :=
  hm.mono .of_adds

theorem addInterceptor_leaves (channel : Channel) (interceptor : Interceptor) :
    (addInterceptor channel interceptor).Leaves (Spares owner) := by
  unfold addInterceptor
  split
  · exact fun w => .of_claims rfl
  · exact .fail _

theorem release_leaves (session : SessionId) :
    (release session owner).Leaves (Spares owner) := by
  intro w
  refine ⟨fun hs => hs.release session owner, fun s o k hne => ?_⟩
  refine Nat.le_of_eq (ClaimBook.owned_release_of_ne (fun heq => hne ?_) k).symm
  exact congrArg Prod.snd heq

end Assembly

namespace Builder

variable {α : Type}

theorem discard_leaves (b : Builder) : b.discard.Leaves (Spares b.flowId) := by
  unfold discard
  split
  · exact .pure _
  · exact release_leaves b.session

theorem guarded_leaves {b : Builder} {call : Assembly α}
    (hc : call.Leaves (Spares b.flowId)) :
    (b.guarded call).Leaves (Spares b.flowId) :=
  .tryCatch hc fun cause => .bind b.discard_leaves fun _ => .throw cause

theorem intoBranch_leaves (b : Builder) : b.intoBranch.Leaves (Spares b.flowId) :=
  leaves_intoBranch b.discard_leaves

end Builder

/-! ## Whole steps -/

/-- The steps of a flow spare the claims of others, when they run in a nested
builder. -/
def SparesWithin (steps : List Step) : Prop :=
  ∀ b : Builder, b.nested = true → (assembleSteps b steps).Leaves (Spares b.flowId)

theorem Builder.runBranch_leaves {b : Builder} {flow : Channel × List Step}
    (hc : Contained flow.2) (hf : SparesWithin flow.2) :
    (b.runBranch flow).Leaves (Spares b.flowId) := by
  refine .bind (hf (b.branch flow.1) rfl) fun {_ nested _} hs => ?_
  have hsame :=
    (SameFlow.of_covers fun _ => paysWithin_of_contained hc rfl hs).flowId
  have hi := nested.intoBranch_leaves
  rwa [hsame] at hi

theorem Builder.runBranches_leaves {b : Builder}
    {flows : List (Channel × List Step)}
    (hf : ∀ flow ∈ flows, Contained flow.2 ∧ SparesWithin flow.2) :
    (flows.mapM b.runBranch).Leaves (Spares b.flowId) :=
  .mapM fun flow hm => runBranch_leaves (hf flow hm).1 (hf flow hm).2

namespace Step

variable {b : Builder}

/-- What is asked of the flows of a step. -/
def SparesInside (s : Step) : Prop :=
  ∀ flow ∈ s.flows, FlowAssembly.Contained flow ∧ SparesWithin flow

theorem leaves_of_stages {s : Step} (hs : s.changesFlow = false)
    (hf : s.SparesInside) :
    (s.assemble b).Leaves (Spares b.flowId) := by
  rw [assemble_eq]
  refine Builder.guarded_leaves <| .bind (s.stage_adds b).spares fun {_ st _} hst =>
    ?_
  have hserves := stage_serves hst
  have hflows : (st.flows.mapM st.builder.runBranch).Leaves (Spares b.flowId) := by
    rw [← hserves.same.flowId]
    exact Builder.runBranches_leaves fun flow hm =>
      hf flow.2 (flow_mem_of_stage hst hm)
  refine .bind hflows fun {_ branches _} _ =>
    .bind (hserves.close hs branches).spares fun _ => .bind ?_ fun _ => .pure _
  unfold Stage.attach
  split
  · exact addInterceptor_leaves _ _
  · exact .pure _

end Step

namespace Builder

theorem withId_leaves (b : Builder) (id : String) :
    (b.withId id).Leaves (Spares b.flowId) := by
  unfold withId
  split
  · exact .pure _
  · refine .bind (updateClaims_leaves fun h => ?_) fun _ => .pure _
    cases h
    exact ⟨fun hs => hs.rename,
      fun s o k hne => ClaimBook.owned_le_rename_of_ne hne s k⟩

theorem withSession_leaves (b : Builder) (session : SessionId) :
    (b.withSession session).Leaves (Spares b.flowId) := by
  unfold withSession
  split
  · exact .pure _
  · exact .bind
      (transferClaims_leaves fun h =>
        ⟨ClaimBook.single_of_transfer h, fun s o k hne =>
          ClaimBook.owned_le_transfer_of_ne h hne s k⟩) fun _ => .pure _

end Builder

theorem Step.leaves_of_inside {s : Step} {b : Builder} (hf : s.SparesInside) :
    (s.assemble b).Leaves (Spares b.flowId) := by
  cases hs : s.changesFlow with
  | false => exact leaves_of_stages hs hf
  | true =>
      cases s with
      | channel | endpoint | wireTap | intercept | route | routeToRecipients
      | publishSubscribe | scatterGather
      | faulty => cases hs
      | withId id =>
          rw [assemble]
          exact Builder.guarded_leaves (b.withId_leaves id)
      | withSession session =>
          rw [assemble]
          exact Builder.guarded_leaves (b.withSession_leaves session)
      | fresh =>
          rw [assemble_fresh]
          have hmade : (Builder.withConfig {}).Leaves (Adds b.session b.flowId) :=
            (Builder.withConfig_leaves {}).adds
          exact .bind b.discard_leaves fun _ => hmade.spares

theorem sparesWithin_of_contained {steps : List Step} (hc : Contained steps) :
    SparesWithin steps := by
  revert hc
  refine Step.flow_induction (P := fun s => s.Contained → s.SparesInside)
    (Q := fun steps => Contained steps → SparesWithin steps) ?step ?nil ?cons steps
  case step =>
    intro s ih hc flow hm
    exact ⟨hc.flow hm, ih flow hm (hc.flow hm)⟩
  case nil =>
    intro _ b _
    exact .pure b
  case cons =>
    intro s rest hs hrest hc b hn
    obtain ⟨hfresh, hin, hc⟩ := contained_cons.1 hc
    rw [assembleSteps]
    refine .bind (Step.leaves_of_inside (hs hin)) fun {_ b₁ _} hy => ?_
    have hcov : ∀ h, b.Covers h 0 _ b₁ _ := fun h =>
      Step.covers (fun flow hm => paysWithin_of_contained (hin.flow hm))
        (.inl ⟨hn, hfresh⟩) hy
    have hsame := Builder.SameFlow.of_covers hcov
    have hnext := hrest hc b₁ (hsame.nested.trans hn)
    rwa [hsame.flowId] at hnext

/-- A step of a builder, whatever comes of it, spares the claims of all other
flows. -/
theorem Step.leaves_spares {s : Step} (hc : s.Contained) (b : Builder) :
    (s.assemble b).Leaves (Spares b.flowId) :=
  leaves_of_inside fun _ hm => ⟨hc.flow hm, sparesWithin_of_contained (hc.flow hm)⟩

/-- Finishing a flow, too, spares the claims of all others. -/
theorem Builder.finish_leaves (b : Builder) : b.finish.Leaves (Spares b.flowId) :=
  guarded_leaves b.conclude_adds.spares

end FlowAssembly
