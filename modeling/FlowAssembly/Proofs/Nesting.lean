import FlowAssembly.Proofs.Running

/-!
# Nested builders

Which builders a step works with besides the one that it is called on. A step
first prepares its flows: it makes the channel that each of them starts at
(`Step.prepare`). Then it runs them one after the other, each from a builder
of its own, and the steps of a flow may hold flows again. So the builders that
are nested in a step are read off its text and the workshop that it starts in,
whatever is said elsewhere of turns and desks.
-/

namespace FlowAssembly

open Assembly

theorem Assembly.Yields.eq {α : Type} {m : Assembly α} {w w₁ w₂ : Workshop}
    {a₁ a₂ : α} (h₁ : Yields m w a₁ w₁) (h₂ : Yields m w a₂ w₂) :
    a₁ = a₂ ∧ w₁ = w₂ := by
  have h : (Except.ok a₁, w₁) = (Except.ok a₂, w₂) := (Eq.symm h₁).trans h₂
  cases h
  exact ⟨rfl, rfl⟩

/-- What a step that answers does before it runs its flows: the builder that
they are assembled for, and each flow with the channel that it starts at.
Checks that do nothing but fail are left out. -/
def Step.prepare (b : Builder) :
    Step → Assembly (Builder × List (Channel × List Step))
  | .endpoint plan sides => do
      let handler ← plan.handler.make
      let seeds ← sides.mapM fun side => side.1.make
      let _ ← resolveInput b.cursor.channel handler
      return (b, seeds.zip (sides.map Prod.snd))
  | .wireTap _ destination => do
      let opening ← destination.openUp
      let (b, _) ← b.tapPoint "wire-tap"
      return (b, seededFlows [opening] [destination])
  | .route plan mappings => do
      let parts ← plan.make mappings
      return (b, seededFlows (parts.openings.map Prod.snd) (mappings.map Prod.snd))
  | .routeToRecipients plan recipients => do
      let parts ← plan.make recipients
      return (b, seededFlows (parts.openings.map Prod.snd)
          (recipients.map Prod.snd))
  | .publishSubscribe plan subscribers => do
      let given ← plan.channel.mapM ChannelPlan.make
      let channel ← Builder.fanOutChannel plan given
      let b ← b.openFanOut channel
      return (b, subscribers.map fun steps => (channel, steps))
  | .scatterGather plan (.recipients list recipients) => do
      let _ ← plan.gather.release.make
      let parts ← list.make recipients
      let _ ← implicitChannel
      let _ ← implicitChannel
      return (b, seededFlows (parts.openings.map Prod.snd)
          (recipients.map Prod.snd))
  | .scatterGather plan (.publish fan subscribers) => do
      let _ ← plan.gather.release.make
      let given ← fan.channel.mapM ChannelPlan.make
      let _ ← implicitChannel
      let channel ← Builder.fanOutChannel fan given
      return (b, subscribers.map fun steps => (channel, steps))
  | _ => return (b, [])

/-- While a flow runs on a builder, the builder stands as given before the
steps that are left, or one that is nested in it does. -/
inductive Reaches : List Step → Builder → Workshop → List Step → Builder → Prop
  | here (steps : List Step) (b : Builder) (w : Workshop) :
      Reaches steps b w steps b
  | later {s : Step} {steps left : List Step} {b b₁ b' : Builder}
      {w w₁ : Workshop} : Yields (s.assemble b) w b₁ w₁ →
      Reaches steps b₁ w₁ left b' → Reaches (s :: steps) b w left b'
  | within {s : Step} {steps left : List Step} {b b₁ b' : Builder}
      {before after : List (Channel × List Step)} {flow : Channel × List Step}
      {branches : List Branch} {w w₁ w₂ : Workshop} :
      Yields (s.prepare b) w (b₁, before ++ flow :: after) w₁ →
      YieldsAll b₁.runBranch w₁ before branches w₂ →
      Reaches flow.2 (b₁.branch flow.1) w₂ left b' →
      Reaches (s :: steps) b w left b'

/-- While branches run one after the other, a builder that is nested in one of
them stands as given. -/
def Builder.Reaches (b : Builder) (flows : List (Channel × List Step))
    (w : Workshop) (left : List Step) (b' : Builder) : Prop :=
  ∃ before flow after branches w₁, flows = before ++ flow :: after ∧
    YieldsAll b.runBranch w before branches w₁ ∧
    FlowAssembly.Reaches flow.2 (b.branch flow.1) w₁ left b'

/-- While a step runs, a builder that is nested in it stands as given. -/
def Step.Reaches (s : Step) (b : Builder) (w : Workshop) (left : List Step)
    (b' : Builder) : Prop :=
  ∃ b₁ flows w₁, Yields (s.prepare b) w (b₁, flows) w₁ ∧ b₁.Reaches flows w₁ left b'

variable {b b₁ b' : Builder} {w w₁ : Workshop} {left : List Step}

theorem Step.reaches_iff {s : Step} {flows : List (Channel × List Step)}
    (h : Yields (s.prepare b) w (b₁, flows) w₁) :
    s.Reaches b w left b' ↔ b₁.Reaches flows w₁ left b' := by
  constructor
  · rintro ⟨_, _, _, hp, hr⟩
    obtain ⟨heq, rfl⟩ := h.eq hp
    cases heq
    exact hr
  · exact fun hr => ⟨_, _, _, h, hr⟩

theorem Builder.not_reaches_nil : ¬ b.Reaches [] w left b' := by
  rintro ⟨before, flow, after, -, -, h, -⟩
  simp at h

theorem Builder.reaches_cons {flow : Channel × List Step}
    {flows : List (Channel × List Step)} {br : Branch}
    (h : Yields (b.runBranch flow) w br w₁) :
    b.Reaches (flow :: flows) w left b' ↔
      FlowAssembly.Reaches flow.2 (b.branch flow.1) w left b' ∨
      b.Reaches flows w₁ left b' := by
  constructor
  · rintro ⟨before, flow', after, branches, w₂, heq, hys, hr⟩
    cases before with
    | nil =>
        cases hys
        cases heq
        exact .inl hr
    | cons first before =>
        cases heq
        cases hys with
        | cons hy hys =>
            obtain ⟨rfl, rfl⟩ := h.eq hy
            exact .inr ⟨before, flow', after, _, _, rfl, hys, hr⟩
  · rintro (hr | ⟨before, flow', after, branches, w₂, rfl, hys, hr⟩)
    · exact ⟨[], flow, flows, [], w, rfl, .nil w, hr⟩
    · exact ⟨flow :: before, flow', after, _, _, rfl, .cons h hys, hr⟩

theorem reaches_nil : Reaches [] b w left b' ↔ left = [] ∧ b' = b := by
  constructor
  · intro h
    cases h
    exact ⟨rfl, rfl⟩
  · rintro ⟨rfl, rfl⟩
    exact .here _ _ _

theorem reaches_cons {s : Step} {steps : List Step}
    (h : Yields (s.assemble b) w b₁ w₁) :
    Reaches (s :: steps) b w left b' ↔
      (left = s :: steps ∧ b' = b) ∨ s.Reaches b w left b' ∨
      Reaches steps b₁ w₁ left b' := by
  constructor
  · intro hr
    cases hr with
    | here => exact .inl ⟨rfl, rfl⟩
    | later hy hr =>
        obtain ⟨rfl, rfl⟩ := h.eq hy
        exact .inr (.inr hr)
    | within hp hys hr =>
        exact .inr (.inl ⟨_, _, _, hp, _, _, _, _, _, rfl, hys, hr⟩)
  · rintro (⟨rfl, rfl⟩ | ⟨_, _, _, hp, _, _, _, _, _, rfl, hys, hr⟩ | hr)
    · exact .here _ _ _
    · exact .within hp hys hr
    · exact .later h hr

/-- A step that holds no flow reaches no other builder. -/
theorem Step.not_reaches {s : Step} (h : s.prepare b = pure (b, [])) :
    ¬ s.Reaches b w left b' := by
  have hp : Yields (s.prepare b) w (b, []) w := by
    rw [h]
    exact yields_pure.2 ⟨rfl, rfl⟩
  rw [Step.reaches_iff hp]
  exact Builder.not_reaches_nil

/-! ## What is left to run stands in the text -/

theorem Step.flow_mem {s : Step} {flows : List (Channel × List Step)}
    (h : Yields (s.prepare b) w (b₁, flows) w₁) {flow : Channel × List Step}
    (hf : flow ∈ flows) : flow.2 ∈ s.flows := by
  match s with
  | .endpoint plan sides =>
      simp only [prepare, yields_bind, yields_pure] at h
      obtain ⟨_, _, -, _, _, -, _, _, -, heq, -⟩ := h
      cases heq
      exact (List.of_mem_zip hf).2
  | .wireTap plan destination =>
      simp only [prepare, yields_bind, yields_pure] at h
      obtain ⟨_, _, -, _, _, -, heq, -⟩ := h
      cases heq
      simpa [flows] using seededFlows_snd_mem hf
  | .route plan mappings =>
      simp only [prepare, yields_bind, yields_pure] at h
      obtain ⟨_, _, -, heq, -⟩ := h
      cases heq
      simpa [flows, List.flatMap_map] using seededFlows_snd_mem hf
  | .routeToRecipients plan recipients =>
      simp only [prepare, yields_bind, yields_pure] at h
      obtain ⟨_, _, -, heq, -⟩ := h
      cases heq
      simpa [flows, List.flatMap_map] using seededFlows_snd_mem hf
  | .publishSubscribe plan subscribers =>
      simp only [prepare, yields_bind, yields_pure] at h
      obtain ⟨_, _, -, _, _, -, _, _, -, heq, -⟩ := h
      cases heq
      obtain ⟨steps, hm, rfl⟩ := List.mem_map.1 hf
      exact hm
  | .scatterGather plan (.recipients list recipients) =>
      simp only [prepare, yields_bind, yields_pure] at h
      obtain ⟨_, _, -, _, _, -, _, _, -, _, _, -, heq, -⟩ := h
      cases heq
      simpa [flows, List.flatMap_map] using seededFlows_snd_mem hf
  | .scatterGather plan (.publish fan subscribers) =>
      simp only [prepare, yields_bind, yields_pure] at h
      obtain ⟨_, _, -, _, _, -, _, _, -, _, _, -, heq, -⟩ := h
      cases heq
      obtain ⟨steps, hm, rfl⟩ := List.mem_map.1 hf
      exact hm
  | .channel _ | .intercept _ | .withId _ | .withSession _ | .fresh | .faulty _ =>
      simp only [prepare, yields_pure] at h
      obtain ⟨heq, -⟩ := h
      cases heq
      cases hf

theorem Reaches.mem_stepsWithin {steps : List Step}
    (h : Reaches steps b w left b') :
    ∀ t ∈ left, t ∈ stepsWithin steps := by
  induction h with
  | here steps =>
      intro t ht
      induction steps with
      | nil => cases ht
      | cons s rest ih =>
          rw [stepsWithin, List.cons_append, List.mem_cons, List.mem_append]
          exact (List.mem_cons.1 ht).imp_right fun ht => .inr (ih ht)
  | later _ _ ih =>
      intro t ht
      rw [stepsWithin]
      exact List.mem_append_right _ (ih t ht)
  | within hp _ _ ih =>
      intro t ht
      have hflow := Step.flow_mem hp (List.mem_append_right _ List.mem_cons_self)
      rw [stepsWithin]
      exact List.mem_append_left _
        (List.mem_cons_of_mem _ (Step.mem_inner hflow (ih t ht)))

/-- Where every flow goes on with the builder that it was handed, no fresh
start is reached. -/
theorem Step.Contained.not_reaches_fresh {s : Step} (h : s.Contained) :
    ¬ s.Reaches b w (.fresh :: left) b' := by
  rintro ⟨_, flows, _, hp, before, flow, after, _, _, rfl, -, hr⟩
  have hfresh := hr.mem_stepsWithin .fresh List.mem_cons_self
  have hflow := Step.flow_mem hp (List.mem_append_right _ List.mem_cons_self)
  cases h.flow hflow .fresh hfresh

end FlowAssembly
