import FlowAssembly.Proofs.Outlook
import FlowAssembly.Proofs.Placement
import FlowAssembly.Proofs.Stages
import FlowAssembly.Proofs.Turns

/-!
# Routing tables

A router and a recipient list are made alike: each destination is opened up,
in declared order, the flows among the destinations are assembled, and the
table that is made says where each key or each recipient leads. A destination
that is a flow leads to the channel that the flow was assembled from
(`Destination.LeadTo`).
-/

namespace FlowAssembly

open Assembly

/-- Where a router or a recipient list sends messages that match nothing. -/
def Handler.defaultOutput? (h : Handler) : Option Target :=
  match h.behaviour with
  | .router router => router.defaultOutput
  | .recipientList list => list.defaultOutput
  | _ => none

/-- Whether unmatched messages are to go on in the flow that the router stands
in. -/
def DefaultPlan.isParentFlow : DefaultPlan → Bool
  | .parentFlow => true
  | .target _ => false

/-- Whether the call appends a router whose unmatched messages go on in the
flow. -/
def Step.fallsBack : Step → Bool
  | .route plan _ => plan.default.any DefaultPlan.isParentFlow
  | .routeToRecipients plan _ => plan.default.any DefaultPlan.isParentFlow
  | _ => false

/-- The destinations lead to the targets, in order. Those that are flows lead
to the channels that the flows start at. -/
inductive Destination.LeadTo : List Destination → List Target →
    List (Channel × List Step) → Prop
  | nil : LeadTo [] [] []
  | target {plan : TargetPlan} {target : Target} {rest : List Destination}
      {targets : List Target} {flows : List (Channel × List Step)}
      {w w' : Workshop} : Yields plan.make w target w' → LeadTo rest targets flows →
      LeadTo (.target plan :: rest) (target :: targets) flows
  | flow {steps : List Step} {seed : Channel} {rest : List Destination}
      {targets : List Target} {flows : List (Channel × List Step)} :
      LeadTo rest targets flows →
      LeadTo (.flow steps :: rest) (.channel seed :: targets)
        ((seed, steps) :: flows)

/-- The handler has the routing table that the call declares, where these are
the flows of the call. -/
inductive Step.Tables (flows : List (Channel × List Step)) : Step → Handler → Prop
  | route {plan : RouterPlan} {mappings : List (String × Destination)} {h : Handler}
      {r : Router} : h.behaviour = .router r →
      r.mappings.map Prod.fst = mappings.map Prod.fst →
      Destination.LeadTo (mappings.map Prod.snd) (r.mappings.map Prod.snd) flows →
      Tables flows (.route plan mappings) h
  | routeToRecipients {plan : RecipientsPlan}
      {declared : List (Option String × Destination)} {h : Handler}
      {list : RecipientList} : h.behaviour = .recipientList list →
      List.Forall₂ (fun text selector =>
        ∀ w, Yields (parseOptional text) w selector w) (declared.map Prod.fst)
        (list.recipients.map Recipient.selector) →
      Destination.LeadTo (declared.map Prod.snd)
        (list.recipients.map Recipient.target) flows →
      Tables flows (.routeToRecipients plan declared) h

variable {s : Step} {b b' : Builder} {flows : List (Channel × List Step)}
  {w w' : Workshop}

theorem Step.Tables.isRouter {h : Handler} (ht : s.Tables flows h) :
    h.isRouter = true := by
  cases ht with
  | route hb | routeToRecipients hb => rw [Handler.isRouter, hb]

/-! ## Making the arguments -/

theorem Assembly.YieldsAll.forall₂ {f : α → Assembly β} {R : α → β → Prop}
    {as : List α} {bs : List β} (h : YieldsAll f w as bs w')
    (hR : ∀ {a b w w'}, Yields (f a) w b w' → R a b) : List.Forall₂ R as bs := by
  induction h with
  | nil => exact .nil
  | cons hy _ ih => exact .cons (hR hy) ih

/-- What a text is parsed to depends on the text only. -/
theorem Assembly.yields_parseOptional_of_yields {text : Option String}
    {selector : Option Expression} (h : Yields (parseOptional text) w selector w')
    (v : Workshop) : Yields (parseOptional text) v selector v := by
  match text with
  | none =>
      obtain ⟨rfl, -⟩ := yields_pure.1 h
      exact yields_pure.2 ⟨rfl, rfl⟩
  | some text =>
      obtain ⟨e, hp, rfl⟩ := yields_map.1 h
      refine yields_map.2 ⟨e, ?_, rfl⟩
      unfold parse at hp ⊢
      generalize Expression.parse text = parsed at hp ⊢
      cases parsed with
      | ok expression =>
          simp only [yields_pure] at hp ⊢
          exact ⟨hp.1, trivial⟩
      | error cause => exact absurd hp not_yields_fail

/-- Destinations that are opened up lead to what they were opened up to. -/
theorem Destination.leadTo_of_openUp {destinations : List Destination}
    {openings : List Opening} (h : YieldsAll openUp w destinations openings w') :
    LeadTo destinations (openings.map Opening.toTarget)
      (seededFlows openings destinations) := by
  induction h with
  | nil => exact .nil
  | @cons w w₁ w' destination opening destinations openings hy _ ih =>
      cases destination with
      | target plan =>
          obtain ⟨target, hm, rfl⟩ := yields_map.1 hy
          exact .target hm ih
      | flow steps =>
          obtain ⟨seed, -, rfl⟩ := yields_map.1 hy
          exact .flow ih

theorem RouterPlan.keys_of_yields_make {plan : RouterPlan}
    {mappings : List (String × Destination)} {parts : RouterParts}
    (h : Yields (plan.make mappings) w parts w') :
    parts.openings.map Prod.fst = mappings.map Prod.fst := by
  simp only [make, yields_bind, yields_pure] at h
  obtain ⟨_, _, -, openings, _, ho, _, _, -, rfl, -⟩ := h
  rw [← List.forall₂_eq_eq_eq, List.forall₂_map_left_iff,
    List.forall₂_map_right_iff]
  refine ((yieldsAll_of_mapM ho).forall₂ fun hy => ?_).flip
  simp only [yields_bind, yields_pure] at hy
  obtain ⟨_, _, -, rfl, -⟩ := hy
  rfl

theorem RecipientsPlan.selectors_of_yields_make {plan : RecipientsPlan}
    {recipients : List (Option String × Destination)} {parts : RecipientParts}
    (h : Yields (plan.make recipients) w parts w') :
    List.Forall₂ (fun text selector =>
      ∀ v, Yields (parseOptional text) v selector v) (recipients.map Prod.fst)
      (parts.openings.map Prod.fst) := by
  simp only [make, yields_bind, yields_pure] at h
  obtain ⟨openings, _, ho, _, _, -, rfl, -⟩ := h
  rw [List.forall₂_map_left_iff, List.forall₂_map_right_iff]
  refine (yieldsAll_of_mapM ho).forall₂ fun hy => ?_
  simp only [yields_bind, yields_pure] at hy
  obtain ⟨_, _, -, _, _, hp, rfl, -⟩ := hy
  exact yields_parseOptional_of_yields hp

theorem DefaultPlan.parentFlow_iff {plan : Option DefaultPlan}
    {default : Option DefaultOutput} (h : Yields (makeOptional plan) w default w') :
    default = some .parentFlow ↔ plan.any isParentFlow = true := by
  match plan with
  | none =>
      obtain ⟨rfl, -⟩ := yields_pure.1 h
      simp
  | some .parentFlow =>
      simp only [makeOptional, make, yields_map, yields_pure] at h
      obtain ⟨_, ⟨rfl, rfl⟩, rfl⟩ := h
      simp [isParentFlow]
  | some (.target given) =>
      simp only [makeOptional, make, yields_map] at h
      obtain ⟨_, ⟨_, -, rfl⟩, rfl⟩ := h
      simp [isParentFlow]

/-- A list of recipients that was made of what is declared has the table that
a recipient list router declares. -/
theorem RecipientsPlan.tables_of_yields_make {plan : RecipientsPlan}
    {recipients : List (Option String × Destination)} {parts : RecipientParts}
    {h : Handler} {list : RecipientList}
    (hm : Yields (plan.make recipients) w parts w')
    (hb : h.behaviour = .recipientList list)
    (hlist : list.recipients = parts.recipients) :
    Step.Tables (seededFlows (parts.openings.map Prod.snd)
      (recipients.map Prod.snd)) (.routeToRecipients plan recipients) h := by
  obtain ⟨_, hopen, -⟩ := plan.of_yields_make hm
  have htable := Destination.leadTo_of_openUp hopen
  rw [List.map_map] at htable
  refine .routeToRecipients hb ?_ ?_
  · rw [hlist, RecipientParts.recipients, List.map_map]
    exact plan.selectors_of_yields_make hm
  · rw [hlist, RecipientParts.recipients, List.map_map]
    exact htable

/-- A router that answers has assembled its branches, dealt with their ends
and appended a handler with the table that was declared. -/
theorem Step.tables_of_yields (hr : s.routes = true)
    (h : Yields (s.assemble b) w b' w') :
    ∃ st w₁ branches w₂ default r w₃ spec b₁ w₄, Yields (s.stage b) w st w₁ ∧
      YieldsAll st.builder.runBranch w₁ st.flows branches w₂ ∧
      (default = some .parentFlow ↔ s.fallsBack = true) ∧
      Yields (b.reconcile branches default) w₂ r w₃ ∧
      s.Tables st.flows spec.handler ∧
      spec.handler.defaultOutput? = r.defaultOutput ∧
      Yields (b.attach spec) { w₃ with nextHandler := w₃.nextHandler + 1 } b₁ w₄ ∧
      Yields (b₁.absorbMerged r.branches r.merge) w₄ b' w' := by
  obtain ⟨st, w₁, branches, w₂, w₃, hst, hbr, hclose, hattach⟩ := of_yields h
  cases s with
  | channel | endpoint | wireTap | intercept | publishSubscribe | scatterGather
  | withId | withSession | fresh
  | faulty => cases hr
  | route plan mappings =>
      have hst' := hst
      simp only [stage, yields_bind, yields_pure] at hst'
      obtain ⟨parts, _, hm, _, _, -, _, _, -, rfl, -⟩ := hst'
      obtain ⟨-, rfl⟩ := yields_pure.1 hattach
      have hdefault : parts.default = some .parentFlow ↔
          fallsBack (.route plan mappings) = true := by
        simp only [RouterPlan.make, yields_bind, yields_pure] at hm
        obtain ⟨_, _, -, _, _, -, default, _, hd, rfl, -⟩ := hm
        exact DefaultPlan.parentFlow_iff hd
      obtain ⟨_, _, -, hopen, -⟩ := plan.of_yields_make hm
      simp only [Builder.finishRoute, yields_bind, yields_newHandler] at hclose
      obtain ⟨r, w₄, hrec, _, _, ⟨rfl, rfl⟩, b₁, w₅, ha, hy⟩ := hclose
      refine ⟨_, w₁, branches, w₂, parts.default, r, w₄, _, b₁, w₅, hst, hbr,
        hdefault, hrec, ?_, rfl, ha, hy⟩
      have htable := Destination.leadTo_of_openUp hopen
      rw [List.map_map] at htable
      refine .route rfl ?_ ?_
      · rw [List.map_map, ← plan.keys_of_yields_make hm]
        rfl
      · rw [List.map_map]
        exact htable
  | routeToRecipients plan recipients =>
      have hst' := hst
      simp only [stage, yields_bind, yields_pure] at hst'
      obtain ⟨parts, _, hm, _, _, -, _, _, -, rfl, -⟩ := hst'
      obtain ⟨-, rfl⟩ := yields_pure.1 hattach
      have hdefault : parts.default = some .parentFlow ↔
          fallsBack (.routeToRecipients plan recipients) = true := by
        simp only [RecipientsPlan.make, yields_bind, yields_pure] at hm
        obtain ⟨_, _, -, default, _, hd, rfl, -⟩ := hm
        exact DefaultPlan.parentFlow_iff hd
      simp only [Builder.finishRecipients, yields_bind, yields_newHandler] at hclose
      obtain ⟨r, w₄, hrec, _, _, ⟨rfl, rfl⟩, b₁, w₅, ha, hy⟩ := hclose
      exact ⟨_, w₁, branches, w₂, parts.default, r, w₄, _, b₁, w₅, hst, hbr,
        hdefault, hrec, plan.tables_of_yields_make hm rfl rfl, rfl, ha, hy⟩

end FlowAssembly
