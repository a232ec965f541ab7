import FlowAssembly.Proofs.Programs

/-!
# The outlook of a program

What becomes of the order of a flow can be read off its steps, before any of
them runs. An `Outlook` keeps three things about a flow that was assembled so
far: whether it stands on a channel, and on which kind (`Landing`); whether
two channels came to stand in a row somewhere in it; and whether an endpoint
came to stand before the channel that it reads.

Two moves of channels make trouble. The channel of a fan-out is registered
once, ahead of its subscribers, although the first of them may have moved it
behind a flow of its own; that flow then begins right behind the channel
(`squeezes`), which shows once the flow goes on. And a router whose branch
ended on the channel of a fan-out takes that channel as its merge channel and
moves it behind the subscribers (`merged`).
-/

namespace FlowAssembly

/-- What a flow stands on. -/
inductive Landing where
  /-- No channel of its own. -/
  | unset
  /-- A channel that nothing reads yet. -/
  | bare
  /-- The channel of a fan-out that has subscribers; squeezed if a channel
  stands right behind it. -/
  | shared (squeezed : Bool)
deriving DecidableEq, Repr

namespace Landing

/-- Whether a channel stands right behind the channel that the flow stands
on. -/
def isSqueezed : Landing → Bool
  | .shared squeezed => squeezed
  | .unset | .bare => false

/-- Whether the flow stands on a channel that has subscribers. -/
def isShared : Landing → Bool
  | .shared _ => true
  | .unset | .bare => false

/-- What a flow stands on once interceptors were attached to it: a channel is
made where there was none. -/
def tapped : Landing → Landing
  | .unset => .bare
  | landing => landing

end Landing

/-- What can be told of a flow from its steps. -/
structure Outlook where
  landing : Landing
  /-- Two channels stand in a row, other than where the flow stands. -/
  crowded : Bool
  /-- An endpoint stands before the channel that it reads. -/
  misplaced : Bool
deriving DecidableEq, Repr

namespace Outlook

/-- A flow of which nothing is there. -/
def blank : Outlook :=
  ⟨.unset, false, false⟩

/-- A branch when it starts, on its channel. -/
def seeded : Outlook :=
  ⟨.bare, false, false⟩

/-- The flow goes on behind the channel that it stands on. -/
def close (o : Outlook) : Outlook :=
  ⟨.unset, o.crowded || o.landing.isSqueezed, o.misplaced⟩

/-- The channel that the flow stands on is moved to the end of the router that
the flow is a branch of. -/
def merged (o : Outlook) : Outlook :=
  ⟨.unset, o.crowded, o.misplaced || o.landing.isShared⟩

/-- Other flows are added behind the flow, closed. -/
def absorb (o : Outlook) (flows : List Outlook) : Outlook :=
  ⟨o.landing, o.crowded || flows.any fun flow => flow.close.crowded,
    o.misplaced || flows.any fun flow => flow.misplaced⟩

/-- The branches of a router, led together: the first channel that one of them
stands on is the merge channel. -/
def converged : List Outlook → List Outlook
  | [] => []
  | o :: rest =>
      if o.landing = .unset then o :: converged rest else o.merged :: rest

theorem converged_of_unset {os : List Outlook} (h : ∀ o ∈ os, o.landing = .unset) :
    converged os = os := by
  induction os with
  | nil => rfl
  | cons o rest ih =>
      rw [List.forall_mem_cons] at h
      rw [converged, if_pos h.1, ih h.2]

end Outlook

namespace Step

/-- The step leaves the flow on the channel that it stands on. -/
def lingers : Step → Bool
  | .wireTap .. | .intercept _ | .withId _ | .withSession _ => true
  | _ => false

/-- The step holds a flow back behind the channel that the flow stands on. -/
def holdsBack : Step → Bool
  | .wireTap _ destination => destination.isFlow
  | _ => false

/-- The step registers flows of its own ahead of the channel that the flow
stands on. -/
def leads : Step → Bool
  | .endpoint _ sides => !sides.isEmpty
  | _ => false

end Step

/-- Whether a flow moves the channel that it starts at behind a flow within
it, given whether it holds one back by now. Only what happens until the
channel has a reader matters. -/
def movesSeed : Bool → List Step → Bool
  | tapped, [] => tapped
  | tapped, step :: rest =>
      if step.lingers then movesSeed (tapped || step.holdsBack) rest else step.leads

/-- Whether a channel comes to stand right behind the channel of a fan-out:
its first subscriber moved that channel. -/
def squeezes (subscribers : List (List Step)) : Bool :=
  subscribers.head?.any (movesSeed false)

/-- What a flow stands on behind a fan-out. -/
def fanOutLanding (subscribers : List (List Step)) : Landing :=
  if subscribers.isEmpty then .bare else .shared (squeezes subscribers)

/-- What a flow stands on when it goes on through a channel, a name or a
marker. -/
def SourcePlan.landing : SourcePlan → Landing
  | .channel _ => .bare
  | .named _ | .fixedSubscriber _ => .unset

mutual

/-- The outlook behind a step, given the one before it. -/
def Step.outlook (o : Outlook) : Step → Outlook
  | .channel source => { o.close with landing := source.landing }
  | .endpoint _ sides => o.close.absorb (sidesOutlook sides)
  | .wireTap _ destination =>
      { o.absorb destination.outlook with landing := o.landing.tapped }
  | .intercept _ => { o with landing := o.landing.tapped }
  | .route _ mappings =>
      o.close.absorb (Outlook.converged (mappingsOutlook mappings))
  | .routeToRecipients _ recipients =>
      o.close.absorb (Outlook.converged (recipientsOutlook recipients))
  | .publishSubscribe _ subscribers =>
      { o.close.absorb (subscribersOutlook subscribers) with
        landing := fanOutLanding subscribers }
  | .scatterGather _ scatter => scatter.outlook o.close
  | .withId _ | .withSession _ | .faulty _ => o
  | .fresh => .blank

/-- The outlook behind the steps of a flow. -/
def stepsOutlook (o : Outlook) : List Step → Outlook
  | [] => o
  | step :: rest => stepsOutlook (step.outlook o) rest

/-- The outlook behind a destination, if it is a flow. -/
def Destination.outlook : Destination → List Outlook
  | .target _ => []
  | .flow steps => [stepsOutlook .seeded steps]

/-- The outlook behind a scatter. -/
def Scatter.outlook (o : Outlook) : Scatter → Outlook
  | .recipients _ recipients => o.absorb (recipientsOutlook recipients)
  | .publish _ subscribers =>
      let all := o.absorb (subscribersOutlook subscribers)
      { all with crowded := all.crowded || squeezes subscribers }

def mappingsOutlook : List (String × Destination) → List Outlook
  | [] => []
  | (_, destination) :: rest => destination.outlook ++ mappingsOutlook rest

def recipientsOutlook : List (Option String × Destination) → List Outlook
  | [] => []
  | (_, destination) :: rest => destination.outlook ++ recipientsOutlook rest

def sidesOutlook : List (ChannelPlan × List Step) → List Outlook
  | [] => []
  | (_, steps) :: rest => stepsOutlook .seeded steps :: sidesOutlook rest

def subscribersOutlook : List (List Step) → List Outlook
  | [] => []
  | steps :: rest => stepsOutlook .seeded steps :: subscribersOutlook rest

end

/-! The flows that a step holds all start on a channel of theirs, so their
outlooks depend on their steps alone. -/

theorem Destination.outlook_eq (d : Destination) :
    d.outlook = d.flows.map (stepsOutlook .seeded) := by
  cases d <;> rfl

theorem mappingsOutlook_eq (mappings : List (String × Destination)) :
    mappingsOutlook mappings = (mappings.flatMap fun mapping => mapping.2.flows).map
      (stepsOutlook .seeded) := by
  induction mappings with
  | nil => rfl
  | cons mapping rest ih => simp [mappingsOutlook, Destination.outlook_eq, ih]

theorem recipientsOutlook_eq (recipients : List (Option String × Destination)) :
    recipientsOutlook recipients =
      (recipients.flatMap fun recipient => recipient.2.flows).map
      (stepsOutlook .seeded) := by
  induction recipients with
  | nil => rfl
  | cons recipient rest ih => simp [recipientsOutlook, Destination.outlook_eq, ih]

theorem sidesOutlook_eq (sides : List (ChannelPlan × List Step)) :
    sidesOutlook sides = (sides.map Prod.snd).map (stepsOutlook .seeded) := by
  induction sides with
  | nil => rfl
  | cons side rest ih => simp [sidesOutlook, ih]

theorem subscribersOutlook_eq (subscribers : List (List Step)) :
    subscribersOutlook subscribers = subscribers.map (stepsOutlook .seeded) := by
  induction subscribers with
  | nil => rfl
  | cons steps rest ih => simp [subscribersOutlook, ih]

/-! ## Faults that a step brings in -/

/-- The step hands messages to subscribers. -/
def Step.fansOut : Step → Bool
  | .publishSubscribe .. | .scatterGather _ (.publish ..) => true
  | _ => false

/-- The step is a router. -/
def Step.routes : Step → Bool
  | .route .. | .routeToRecipients .. => true
  | _ => false

/-- Whether a router moves the channel of a fan-out: of its branches, the
first that ended on a channel ended on one that has subscribers. -/
def mergesShared (branches : List (List Step)) : Bool :=
  ((branches.map (stepsOutlook .seeded)).find? fun o => o.landing ≠ .unset).any
    fun o => o.landing.isShared

namespace Outlook

@[simp]
theorem crowded_close (o : Outlook) :
    o.close.crowded = (o.crowded || o.landing.isSqueezed) :=
  rfl

@[simp]
theorem misplaced_close (o : Outlook) : o.close.misplaced = o.misplaced := rfl

theorem misplaced_converged (os : List Outlook) :
    ((converged os).any fun o => o.misplaced) =
      ((os.any fun o => o.misplaced) || (os.find? fun o => o.landing ≠ .unset).any
        fun o => o.landing.isShared) := by
  induction os with
  | nil => rfl
  | cons o rest ih =>
      rw [converged, List.find?_cons]
      by_cases h : o.landing = .unset
      · simp only [h, if_true, List.any_cons, ih, ne_eq, not_true, decide_false,
          Bool.or_assoc]
      · simp only [h, if_false, List.any_cons, merged, ne_eq, not_false_eq_true,
          decide_true, Option.any_some]
        ac_rfl

end Outlook

/-- A fan-out crowds a flow where a subscriber moved its channel, or where the
flow or a subscriber is crowded by itself. -/
theorem Step.crowded_of_fansOut {s : Step} (h : s.fansOut = true) (o : Outlook) :
    (s.outlook o).close.crowded =
      (o.close.crowded ||
        (squeezes s.flows || s.flows.any fun flow =>
          (stepsOutlook .seeded flow).close.crowded)) := by
  match s with
  | .channel _ | .endpoint .. | .wireTap .. | .intercept _ | .route ..
  | .routeToRecipients .. | .withId _
  | .withSession _ | .fresh | .faulty _ | .scatterGather _ (.recipients ..) =>
      cases h
  | .publishSubscribe _ subscribers =>
      have hlanding :
          (fanOutLanding subscribers).isSqueezed = squeezes subscribers := by
        cases subscribers with
        | nil => rfl
        | cons _ _ => rfl
      simp only [outlook, flows, Outlook.crowded_close, Outlook.absorb,
        subscribersOutlook_eq, List.any_map, hlanding, Function.comp_def]
      ac_rfl
  | .scatterGather _ (.publish _ subscribers) =>
      simp only [outlook, Scatter.outlook, flows, Outlook.absorb,
        subscribersOutlook_eq, List.any_map, Outlook.close, Landing.isSqueezed,
        Function.comp_def, Bool.or_false]
      ac_rfl

/-- A router misplaces an endpoint where it moves the channel of a fan-out, or
where the flow or a branch has one misplaced by itself. -/
theorem Step.misplaced_of_routes {s : Step} (h : s.routes = true) (o : Outlook) :
    (s.outlook o).misplaced =
      (o.misplaced ||
        (mergesShared s.flows || s.flows.any fun flow =>
          (stepsOutlook .seeded flow).misplaced)) := by
  have hconverged : ∀ os : List (List Step),
      ((Outlook.converged (os.map (stepsOutlook .seeded))).any fun o =>
        o.misplaced) = (mergesShared os || os.any fun flow =>
          (stepsOutlook .seeded flow).misplaced) := by
    intro os
    rw [Outlook.misplaced_converged, List.any_map, Bool.or_comm]
    rfl
  match s with
  | .channel _ | .endpoint .. | .wireTap .. | .intercept _ | .publishSubscribe ..
  | .scatterGather .. | .withId _
  | .withSession _ | .fresh | .faulty _ => cases h
  | .route _ mappings =>
      simp only [outlook, flows, Outlook.absorb, Outlook.misplaced_close,
        mappingsOutlook_eq, hconverged]
  | .routeToRecipients _ recipients =>
      simp only [outlook, flows, Outlook.absorb, Outlook.misplaced_close,
        recipientsOutlook_eq, hconverged]

/-! ## Programs without fan-outs -/

/-- Neither the step nor any in its flows fans out. -/
def Step.FanFree (s : Step) : Prop :=
  ∀ t ∈ s :: s.inner, t.fansOut = false

instance (s : Step) : Decidable s.FanFree :=
  inferInstanceAs (Decidable (∀ t ∈ s :: s.inner, t.fansOut = false))

/-- The flow has no fault, and nothing reads the channel that it stands on. -/
structure Outlook.Clean (o : Outlook) : Prop where
  unshared : o.landing.isShared = false
  apart : o.crowded = false
  ordered : o.misplaced = false

namespace Outlook.Clean

variable {o : Outlook}

theorem blank : Outlook.blank.Clean := ⟨rfl, rfl, rfl⟩

theorem seeded : Outlook.seeded.Clean := ⟨rfl, rfl, rfl⟩

theorem crowded_close (h : o.Clean) : o.close.crowded = false := by
  have hsqueezed : o.landing.isSqueezed = false := by
    have hunshared := h.unshared
    cases hl : o.landing with
    | unset | bare => rfl
    | shared squeezed => simp [hl, Landing.isShared] at hunshared
  rw [Outlook.crowded_close, h.apart, hsqueezed]
  rfl

theorem close (h : o.Clean) : o.close.Clean := ⟨rfl, h.crowded_close, h.ordered⟩

theorem merged (h : o.Clean) : o.merged.Clean := by
  refine ⟨rfl, h.apart, ?_⟩
  rw [Outlook.merged, h.ordered, h.unshared]
  rfl

theorem absorb (h : o.Clean) {flows : List Outlook}
    (hf : ∀ flow ∈ flows, flow.Clean) : (o.absorb flows).Clean := by
  refine ⟨h.unshared, ?_, ?_⟩
  · rw [Outlook.absorb, h.apart, Bool.false_or, List.any_eq_false]
    exact fun flow hm => by
      simp only [(hf flow hm).crowded_close, Bool.false_eq_true, not_false_eq_true]
  · rw [Outlook.absorb, h.ordered, Bool.false_or, List.any_eq_false]
    exact fun flow hm => by
      simp only [(hf flow hm).ordered, Bool.false_eq_true, not_false_eq_true]

theorem converged {os : List Outlook} (h : ∀ o ∈ os, o.Clean) :
    ∀ o ∈ Outlook.converged os, o.Clean := by
  induction os with
  | nil => exact nofun
  | cons o rest ih =>
      rw [List.forall_mem_cons] at h
      rw [Outlook.converged]
      split
      · rw [List.forall_mem_cons]
        exact ⟨h.1, ih h.2⟩
      · rw [List.forall_mem_cons]
        exact ⟨h.1.merged, h.2⟩

theorem landing (h : o.Clean) {l : Landing} (hl : l.isShared = false) :
    { o with landing := l }.Clean :=
  ⟨hl, h.apart, h.ordered⟩

theorem tapped (h : o.Clean) : o.landing.tapped.isShared = false := by
  have hunshared := h.unshared
  cases hl : o.landing with
  | unset | bare => rfl
  | shared squeezed => simp [hl, Landing.isShared] at hunshared

end Outlook.Clean

theorem SourcePlan.isShared_landing (plan : SourcePlan) :
    plan.landing.isShared = false := by
  cases plan <;> rfl

/-- Without fan-outs no step brings in a fault. -/
theorem Step.clean_outlook {s : Step} :
    s.FanFree → ∀ {o : Outlook}, o.Clean → (s.outlook o).Clean := by
  refine Step.induction
    (P := fun s => s.FanFree → ∀ {o : Outlook}, o.Clean → (s.outlook o).Clean)
    (Q := fun steps => (∀ t ∈ stepsWithin steps, t.fansOut = false) →
      ∀ {o : Outlook}, o.Clean → (stepsOutlook o steps).Clean) ?step ?nil ?cons s
  case step =>
    intro s ih hs o ho
    have hflows : ∀ os, os = s.flows.map (stepsOutlook .seeded) →
        ∀ o ∈ os, o.Clean := by
      rintro os rfl o hm
      obtain ⟨flow, hflow, rfl⟩ := List.mem_map.1 hm
      refine ih flow hflow (fun t ht => hs t (List.mem_cons_of_mem s ?_)) .seeded
      rw [inner_eq]
      exact List.mem_flatMap.2 ⟨flow, hflow, ht⟩
    match s with
    | .channel plan => exact ho.close.landing plan.isShared_landing
    | .endpoint _ sides => exact ho.close.absorb (hflows _ (sidesOutlook_eq sides))
    | .wireTap _ d => exact (ho.absorb (hflows _ d.outlook_eq)).landing ho.tapped
    | .intercept _ => exact ho.landing ho.tapped
    | .route _ mappings =>
        exact ho.close.absorb (.converged (hflows _ (mappingsOutlook_eq mappings)))
    | .routeToRecipients _ recipients =>
        exact ho.close.absorb
          (.converged (hflows _ (recipientsOutlook_eq recipients)))
    | .publishSubscribe _ _ =>
        exact absurd (hs _ List.mem_cons_self) (by simp [fansOut])
    | .scatterGather _ (.recipients _ recipients) =>
        exact ho.close.absorb (hflows _ (recipientsOutlook_eq recipients))
    | .scatterGather _ (.publish _ _) =>
        exact absurd (hs _ List.mem_cons_self) (by simp [fansOut])
    | .withId _ | .withSession _ | .faulty _ => exact ho
    | .fresh => exact .blank
  case nil => exact fun _ _ ho => ho
  case cons =>
    intro s rest hs hrest hall o ho
    rw [stepsWithin, List.cons_append] at hall
    refine hrest (fun t ht => hall t ?_) (hs (fun t ht => hall t ?_) ho)
    · exact List.mem_cons_of_mem s (List.mem_append_right _ ht)
    · exact (List.mem_cons.1 ht).elim (fun h => h ▸ List.mem_cons_self)
        fun h => List.mem_cons_of_mem s (List.mem_append_left _ h)

end FlowAssembly
