import FlowAssembly.Proofs.Outlook
import FlowAssembly.Proofs.Reaching
import FlowAssembly.Proofs.Tidiness
import FlowAssembly.Proofs.Visits

/-!
# Calls at any depth

A call is made on a builder that its caller works on, or on one that is nested
in a call, at whatever depth. In either case a series of turns leads to the
desk of the builder, so the call finds a tidy pile of desks (`Called.tidy`),
and the flows of a router leave it so, with one branch for each of them
(`Step.passes_branches`).
-/

namespace FlowAssembly

open Assembly

variable {B : Channel → Prop} {s : Step} {steps left : List Step} {b b' : Builder}
  {w w' : Workshop}

/-! ## Moments of a run as turns -/

/-- The flows of a call are assembled one after the other, and turns lead to
the start of each. -/
theorem Step.passes_flow {st : Stage} {before after : List (Channel × List Step)}
    {flow : Channel × List Step} {branches : List Branch} {w₁ w₂ : Workshop}
    (hb : ∀ c ∈ s.brought, B c) (hst : Yields (s.stage b) w st w₁)
    (heq : st.flows = before ++ flow :: after)
    (hys : YieldsAll st.builder.runBranch w₁ before branches w₂) (t : List Desk) :
    (∀ c ∈ broughtBy flow.2, B c) ∧
    ∃ d : Desk,
      Passes B ({ builder := b } :: t) w.nextComponent
        ({ builder := st.builder.branch flow.1 } :: d :: t) w₂.nextComponent := by
  have hp := Step.prepare_of_stage hst (by rw [heq]; simp)
  rw [heq] at hp
  exact Step.passes hb hp hys

theorem Visits.passes (h : Visits steps b w left b' w')
    (hb : ∀ c ∈ broughtBy steps, B c) (d : Desk) (t : List Desk) :
    (∀ c ∈ broughtBy left, B c) ∧
    ∃ ds,
      Passes B ({ builder := b } :: d :: t) w.nextComponent
        ({ builder := b' } :: ds) w'.nextComponent := by
  induction h generalizing d t with
  | here => exact ⟨hb, d :: t, [], .refl _ _⟩
  | @later s steps left b b₁ b' w w₁ w' hy _ ih =>
      rw [broughtBy_cons] at hb
      obtain ⟨hleft, ds, hpasses⟩ :=
        ih (fun c hc => hb c (List.mem_append_right _ hc)) d t
      exact ⟨hleft, ds,
        (Step.passes_answer (fun c hc => hb c (List.mem_append_left _ hc)) hy).trans
          hpasses⟩
  | within hst heq hys _ ih =>
      rw [broughtBy_cons] at hb
      have hbs := fun c hc => hb c (List.mem_append_left _ hc)
      obtain ⟨hflow, d', hpasses⟩ := Step.passes_flow hbs hst heq hys (d :: t)
      obtain ⟨hleft, ds, hrest⟩ := ih hflow d' (d :: t)
      exact ⟨hleft, ds, hpasses.trans hrest⟩

/-- A builder that is nested in a call is reached by turns from the builder
that is called. -/
theorem Step.Visits.passes (h : s.Visits b w left b' w')
    (hb : ∀ c ∈ s.brought, B c) :
    (∀ c ∈ broughtBy left, B c) ∧
    ∃ ds,
      Passes B [{ builder := b }] w.nextComponent ({ builder := b' } :: ds)
        w'.nextComponent := by
  obtain ⟨st, w₁, before, flow, after, branches, w₂, hst, heq, hys, hv⟩ := h
  obtain ⟨hflow, d, hpasses⟩ := Step.passes_flow hb hst heq hys []
  obtain ⟨hleft, ds, hrest⟩ := hv.passes hflow d []
  exact ⟨hleft, ds, hpasses.trans hrest⟩

theorem Tidy.passes {own : Channel → Bool} {ds ds' : List Desk} {n n' : Nat}
    (h : Tidy own B ds n) (hp : Passes B ds n ds' n') : Tidy own B ds' n' := by
  obtain ⟨history, ht⟩ := hp
  induction ht with
  | refl => exact h
  | step hturn _ ih => exact ih (h.turn hturn)

/-! ## Calls -/

/-- The builder is called in the workshop: by its caller, or in a flow that a
call assembles. Channels that the caller brings were made before. -/
inductive Called (s : Step) (b : Builder) (w : Workshop) : Prop
  | own {program : List Step} {past : List Moment} :
      Underway (fun _ => True) program b w past → (∀ c ∈ s.brought, b.Knows w c) →
      Called s b w
  | nested {program left : List Step} {past : List Moment} {outer : Step}
      {b₀ : Builder} {w₀ : Workshop} : Underway (fun _ => True) program b₀ w₀ past →
      (∀ c ∈ outer.brought, b₀.Knows w₀ c) → outer.Visits b₀ w₀ (s :: left) b w →
      Called s b w

/-- Where nothing stands in the flow yet, all that counts is that the channels
were made before. -/
theorem Called.of_start {config : Config} {w₀ : Workshop}
    (hy : Yields (Start.make (.empty config)) w₀ b w)
    (hb : ∀ c ∈ s.brought, c.key.number < w₀.nextComponent) : Called s b w := by
  refine .own (.start (by simp [Start.brought]) hy) ?_
  simp only [Start.make, Builder.withConfig, yields_bind, yields_newFlowId,
    yields_newSession, yields_pure] at hy
  obtain ⟨_, _, ⟨rfl, rfl⟩, _, _, ⟨rfl, rfl⟩, rfl, rfl⟩ := hy
  exact fun c hc => ⟨hb c hc, fun _ hx => absurd hx List.not_mem_nil⟩

theorem Underway.tidy {usable : Channel → Prop} {program : List Step}
    {past : List Moment} (h : Underway usable program b w past)
    (hb : ∀ c ∈ s.brought, usable c ∧ b.Knows w c) :
    Tidy (fun _ => false) (· ∈ s.brought) [{ builder := b }] w.nextComponent :=
  have hkept : Kept usable fun brought _ ds n =>
      Tidy (fun _ => false) brought ds n :=
    Tidy.kept nofun fun _ _ => rfl
  @Kept.bring _ _ hkept _ _ _ past (h.kept hkept) hb

/-- Whoever calls, the pile that the call finds is tidy. -/
theorem Called.tidy (h : Called s b w) :
    ∃ B ds, (∀ c ∈ s.brought, B c) ∧
      Tidy (fun _ => false) B ({ builder := b } :: ds) w.nextComponent := by
  cases h with
  | own hu hb =>
      exact ⟨_, [], fun _ hc => hc, hu.tidy fun c hc => ⟨trivial, hb c hc⟩⟩
  | @nested _ left _ outer _ _ hu hb hv =>
      obtain ⟨hleft, ds, hpasses⟩ :=
        hv.passes (B := (· ∈ outer.brought)) fun c hc => hc
      rw [broughtBy_cons] at hleft
      exact ⟨_, ds, fun c hc => hleft c (List.mem_append_left _ hc),
        (hu.tidy fun c hc => ⟨trivial, hb c hc⟩).passes hpasses⟩

theorem Called.given (h : Called s b w) :
    ∀ x ∈ b.components, x.key.number < w.nextComponent := by
  obtain ⟨B, ds, -, htidy⟩ := h.tidy
  exact htidy.given_builder

theorem Called.given_brought (h : Called s b w) :
    ∀ c ∈ s.brought, c.key.number < w.nextComponent := by
  obtain ⟨B, ds, hbrought, htidy⟩ := h.tidy
  exact fun c hc => (htidy.brought c (hbrought c hc)).2.1

/-! ## Routers -/

/-- The flows of a router are assembled one after the other, each at a channel
that was made for it. -/
theorem Step.passes_branches {t : List Desk} {st : Stage} {branches : List Branch}
    {w₁ w₂ : Workshop} (hr : s.routes = true) (hb : ∀ c ∈ s.brought, B c)
    (hst : Yields (s.stage b) w st w₁)
    (hys : YieldsAll st.builder.runBranch w₁ st.flows branches w₂) :
    st.builder = b ∧
    Passes B ({ builder := b } :: t) w.nextComponent
      ({ builder := b, branches } :: t) w₂.nextComponent := by
  have hflows : ∀ flow ∈ st.flows, LeadsWithin B flow.2 := by
    refine fun flow hm => leadsWithin flow.2 fun c hc => hb c ?_
    rw [Step.brought_eq]
    exact List.mem_append_right _
      (List.mem_flatMap.2 ⟨flow.2, flow_mem_of_stage hst hm, hc⟩)
  cases s with
  | channel | endpoint | wireTap | intercept | publishSubscribe | scatterGather
  | withId | withSession | fresh
  | faulty => cases hr
  | route plan mappings =>
      simp only [stage, yields_bind, yields_pure, yields_ensure,
        Builder.yields_ensureOpen] at hst
      obtain ⟨parts, _, hm, _, _, ⟨-, rfl⟩, _, _, ⟨-, rfl⟩, rfl, rfl⟩ := hst
      obtain ⟨hmade, hseeds⟩ :=
        leads_makeRouter (B := B) (t := t) (d := { builder := b }) hm
      have hrun := leads_runReady (t := t) (d := { builder := b, channels := _ })
        hflows (fun flow hf => .inl (hseeds flow hf)) rfl
        (List.append_nil _).symm hys
      exact ⟨rfl, hmade.passes.trans hrun.passes⟩
  | routeToRecipients plan recipients =>
      simp only [stage, yields_bind, yields_pure, yields_ensure,
        Builder.yields_ensureOpen] at hst
      obtain ⟨parts, _, hm, _, _, ⟨-, rfl⟩, _, _, ⟨-, rfl⟩, rfl, rfl⟩ := hst
      obtain ⟨hmade, hseeds⟩ :=
        leads_makeRecipients (B := B) (t := t) (d := { builder := b }) hm
      have hrun := leads_runReady (t := t) (d := { builder := b, channels := _ })
        hflows (fun flow hf => .inl (hseeds flow hf)) rfl
        (List.append_nil _).symm hys
      exact ⟨rfl, hmade.passes.trans hrun.passes⟩

end FlowAssembly
