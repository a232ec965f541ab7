import FlowAssembly.Builder.Basic
import FlowAssembly.Plan

/-!
# Programs as text

What can be read off the steps of a flow without running them. A program
nests: a step may hold flows, and their steps may hold flows again.
`Step.inner` lists every step below a step, at any depth, so that a property
of programs is a property of each listed step, or a list gathered from them.
-/

namespace FlowAssembly

/-- The ways to start a flow. -/
inductive Start where
  | empty (config : Config)
  | channel (channel : Channel)
  | name (name : String)
  | source (spec : SourceSpec)

/-- The builder that a flow starts with. -/
def Start.make : Start → Assembly Builder
  | .empty config => Builder.withConfig config
  | .channel c => Builder.fromChannel c
  | .name n => Builder.fromChannelName n
  | .source spec => Builder.fromSource spec

mutual

/-- The steps of the flows that a step holds, at any depth. -/
def Step.inner : Step → List Step
  | .endpoint _ sides => sidesWithin sides
  | .wireTap _ destination => destination.within
  | .route _ mappings => mappingsWithin mappings
  | .routeToRecipients _ recipients => recipientsWithin recipients
  | .publishSubscribe _ subscribers => subscribersWithin subscribers
  | .scatterGather _ scatter => scatter.within
  | .channel _ | .intercept _ | .withId _ | .withSession _ | .fresh | .faulty _ =>
      []

/-- The steps of a flow, at any depth. -/
def stepsWithin : List Step → List Step
  | [] => []
  | step :: rest => step :: step.inner ++ stepsWithin rest

/-- The steps behind a destination, at any depth. -/
def Destination.within : Destination → List Step
  | .target _ => []
  | .flow steps => stepsWithin steps

/-- The steps behind a scatter, at any depth. -/
def Scatter.within : Scatter → List Step
  | .recipients _ recipients => recipientsWithin recipients
  | .publish _ subscribers => subscribersWithin subscribers

def mappingsWithin : List (String × Destination) → List Step
  | [] => []
  | (_, destination) :: rest => destination.within ++ mappingsWithin rest

def recipientsWithin : List (Option String × Destination) → List Step
  | [] => []
  | (_, destination) :: rest => destination.within ++ recipientsWithin rest

def sidesWithin : List (ChannelPlan × List Step) → List Step
  | [] => []
  | (_, steps) :: rest => stepsWithin steps ++ sidesWithin rest

def subscribersWithin : List (List Step) → List Step
  | [] => []
  | steps :: rest => stepsWithin steps ++ subscribersWithin rest

end

/-! ## The flows of one step -/

/-- The flow that a destination leads into, if it does. -/
def Destination.flows : Destination → List (List Step)
  | .target _ => []
  | .flow steps => [steps]

/-- The flows that a step itself holds, in the order in which they are
assembled. -/
def Step.flows : Step → List (List Step)
  | .endpoint _ sides => sides.map Prod.snd
  | .wireTap _ destination => destination.flows
  | .route _ mappings => mappings.flatMap fun mapping => mapping.2.flows
  | .routeToRecipients _ recipients =>
      recipients.flatMap fun recipient => recipient.2.flows
  | .publishSubscribe _ subscribers => subscribers
  | .scatterGather _ (.recipients _ recipients) =>
      recipients.flatMap fun recipient => recipient.2.flows
  | .scatterGather _ (.publish _ subscribers) => subscribers
  | .channel _ | .intercept _ | .withId _ | .withSession _ | .fresh | .faulty _ =>
      []

theorem Destination.within_eq (d : Destination) :
    d.within = d.flows.flatMap stepsWithin := by
  cases d <;> simp [within, flows]

theorem mappingsWithin_eq (mappings : List (String × Destination)) :
    mappingsWithin mappings =
      (mappings.flatMap fun mapping => mapping.2.flows).flatMap stepsWithin := by
  induction mappings with
  | nil => rfl
  | cons mapping rest ih => simp [mappingsWithin, Destination.within_eq, ih]

theorem recipientsWithin_eq (recipients : List (Option String × Destination)) :
    recipientsWithin recipients =
      (recipients.flatMap fun recipient => recipient.2.flows).flatMap
      stepsWithin := by
  induction recipients with
  | nil => rfl
  | cons recipient rest ih => simp [recipientsWithin, Destination.within_eq, ih]

theorem sidesWithin_eq (sides : List (ChannelPlan × List Step)) :
    sidesWithin sides = (sides.map Prod.snd).flatMap stepsWithin := by
  induction sides with
  | nil => rfl
  | cons side rest ih => simp [sidesWithin, ih]

theorem subscribersWithin_eq (subscribers : List (List Step)) :
    subscribersWithin subscribers = subscribers.flatMap stepsWithin := by
  induction subscribers with
  | nil => rfl
  | cons steps rest ih => simp [subscribersWithin, ih]

theorem Step.inner_eq (s : Step) : s.inner = s.flows.flatMap stepsWithin := by
  match s with
  | .endpoint _ sides => simp only [inner, flows, sidesWithin_eq]
  | .wireTap _ d => simp only [inner, flows, Destination.within_eq]
  | .route _ mappings => simp only [inner, flows, mappingsWithin_eq]
  | .routeToRecipients _ recipients => simp only [inner, flows, recipientsWithin_eq]
  | .publishSubscribe _ subscribers =>
      simp only [inner, flows, subscribersWithin_eq]
  | .scatterGather _ (.recipients _ recipients) =>
      simp only [inner, flows, Scatter.within, recipientsWithin_eq]
  | .scatterGather _ (.publish _ subscribers) =>
      simp only [inner, flows, Scatter.within, subscribersWithin_eq]
  | .channel _ | .intercept _ | .withId _ | .withSession _ | .fresh | .faulty _ =>
      rfl

theorem Step.mem_inner {s t : Step} {flow : List Step} (hf : flow ∈ s.flows)
    (ht : t ∈ stepsWithin flow) :
    t ∈ s.inner := by
  rw [inner_eq]
  exact List.mem_flatMap.2 ⟨flow, hf, ht⟩

theorem Destination.sizeOf_flow {d : Destination} {flow : List Step}
    (h : flow ∈ d.flows) :
    sizeOf flow < sizeOf d := by
  cases d with
  | target plan => cases h
  | flow steps =>
      obtain rfl := List.mem_singleton.1 h
      simp

theorem Step.sizeOf_flow {s : Step} {flow : List Step} (h : flow ∈ s.flows) :
    sizeOf flow < sizeOf s := by
  match s with
  | .endpoint _ sides =>
      obtain ⟨side, hm, rfl⟩ := List.mem_map.1 h
      have hlt := List.sizeOf_lt_of_mem hm
      cases side
      simp at hlt ⊢
      omega
  | .wireTap _ d =>
      have hlt := Destination.sizeOf_flow h
      simp only [wireTap.sizeOf_spec]
      omega
  | .route _ mappings =>
      obtain ⟨mapping, hm, hf⟩ := List.mem_flatMap.1 h
      have hlt := Destination.sizeOf_flow hf
      have hin := List.sizeOf_lt_of_mem hm
      cases mapping
      simp at hin hlt ⊢
      omega
  | .routeToRecipients _ recipients =>
      obtain ⟨recipient, hm, hf⟩ := List.mem_flatMap.1 h
      have hlt := Destination.sizeOf_flow hf
      have hin := List.sizeOf_lt_of_mem hm
      cases recipient
      simp at hin hlt ⊢
      omega
  | .publishSubscribe _ subscribers =>
      have hlt : sizeOf flow < sizeOf subscribers := List.sizeOf_lt_of_mem h
      simp only [publishSubscribe.sizeOf_spec]
      omega
  | .scatterGather _ (.recipients _ recipients) =>
      obtain ⟨recipient, hm, hf⟩ := List.mem_flatMap.1 h
      have hlt := Destination.sizeOf_flow hf
      have hin := List.sizeOf_lt_of_mem hm
      cases recipient
      simp at hin hlt ⊢
      omega
  | .scatterGather _ (.publish _ subscribers) =>
      have hlt : sizeOf flow < sizeOf subscribers := List.sizeOf_lt_of_mem h
      simp only [scatterGather.sizeOf_spec, Scatter.publish.sizeOf_spec]
      omega

/-! Induction over programs: a step is reached through the flows that it
holds, a flow through its steps. -/

mutual

theorem Step.induction {P : Step → Prop} {Q : List Step → Prop}
    (step : ∀ s, (∀ flow ∈ s.flows, Q flow) → P s) (nil : Q [])
    (cons : ∀ s rest, P s → Q rest → Q (s :: rest)) (s : Step) : P s :=
  step s fun flow hm =>
    have := Step.sizeOf_flow hm
    Step.flow_induction step nil cons flow
termination_by sizeOf s

theorem Step.flow_induction {P : Step → Prop} {Q : List Step → Prop}
    (step : ∀ s, (∀ flow ∈ s.flows, Q flow) → P s) (nil : Q [])
    (cons : ∀ s rest, P s → Q rest → Q (s :: rest)) (steps : List Step) : Q steps :=
  match steps with
  | [] => nil
  | s :: rest =>
      cons s rest (Step.induction step nil cons s)
        (Step.flow_induction step nil cons rest)
termination_by sizeOf steps

end

namespace Step

/-- Whether the step throws its builder away. -/
def isFresh : Step → Bool
  | .fresh => true
  | _ => false

theorem eq_fresh {s : Step} (h : s.isFresh = true) : s = .fresh := by
  cases s <;> first | rfl | cases h

/-- Whether the step changes whose flow it is: its id, its session, or the
builder as a whole. -/
def changesFlow : Step → Bool
  | .withId _ | .withSession _ | .fresh => true
  | _ => false

theorem cases_of_changesFlow {s : Step} (h : s.changesFlow = true) :
    (∃ id, s = .withId id) ∨ (∃ session, s = .withSession session) ∨
    s = .fresh := by
  cases s with
  | withId id => exact .inl ⟨id, rfl⟩
  | withSession session => exact .inr (.inl ⟨session, rfl⟩)
  | fresh => exact .inr (.inr rfl)
  | channel | endpoint | wireTap | intercept | route | routeToRecipients
  | publishSubscribe | scatterGather
  | faulty => cases h

/-- Every flow that the step holds, at any depth, goes on with the builder
that it was handed. -/
def Contained (s : Step) : Prop :=
  ∀ t ∈ s.inner, t.isFresh = false

instance (s : Step) : Decidable s.Contained :=
  inferInstanceAs (Decidable (∀ t ∈ s.inner, t.isFresh = false))

end Step

/-- The steps of a flow go on with the builder that they were handed, and so
do those of the flows within. -/
def Contained (steps : List Step) : Prop :=
  ∀ t ∈ stepsWithin steps, t.isFresh = false

instance (steps : List Step) : Decidable (Contained steps) :=
  inferInstanceAs (Decidable (∀ t ∈ stepsWithin steps, t.isFresh = false))

theorem Step.Contained.flow {s : Step} (h : s.Contained) {flow : List Step}
    (hf : flow ∈ s.flows) :
    FlowAssembly.Contained flow :=
  fun t ht => h t (Step.mem_inner hf ht)

theorem contained_cons {s : Step} {rest : List Step} :
    Contained (s :: rest) ↔ s.isFresh = false ∧ s.Contained ∧ Contained rest := by
  unfold Contained Step.Contained
  rw [stepsWithin]
  constructor
  · intro h
    exact ⟨h s (by simp), fun t ht => h t (by simp [ht]),
      fun t ht => h t (by simp [ht])⟩
  · rintro ⟨hs, hin, hrest⟩ t ht
    rw [List.cons_append, List.mem_cons, List.mem_append] at ht
    rcases ht with rfl | ht | ht
    · exact hs
    · exact hin t ht
    · exact hrest t ht

end FlowAssembly
