import FlowAssembly.Builder.Assemble
import FlowAssembly.Proofs.Operations
import FlowAssembly.Proofs.Programs

/-!
# Running a step

A step that branches assembles its branches one after the other, each in a
nested builder, and then goes on with them. Whatever kind of list the step
holds them in, this is one and the same thing: a run over pairs of a channel
to start at and the steps to run (`Builder.runBranch`). What follows here
takes every kind of step apart in these terms, so that a property of programs
needs one case for each kind of step and nothing about the lists.
-/

namespace FlowAssembly

open Assembly

/-- Assembles a branch: its steps run in a nested builder that starts at the
given channel. -/
def Builder.runBranch (b : Builder) (flow : Channel × List Step) :
    Assembly Branch := do
  let nested ← assembleSteps (b.branch flow.1) flow.2
  nested.intoBranch

/-- The flows of destinations, each with the channel that was made for it to
start at. -/
def seededFlows : List Opening → List Destination → List (Channel × List Step)
  | .seed channel :: openings, .flow steps :: rest =>
      (channel, steps) :: seededFlows openings rest
  | _ :: openings, _ :: rest => seededFlows openings rest
  | _, _ => []

theorem seededFlows_snd_mem {openings : List Opening}
    {destinations : List Destination} {flow : Channel × List Step}
    (h : flow ∈ seededFlows openings destinations) :
    flow.2 ∈ destinations.flatMap Destination.flows := by
  fun_induction seededFlows openings destinations with
  | case1 channel openings steps rest ih =>
      rw [List.flatMap_cons, List.mem_append]
      rcases List.mem_cons.1 h with rfl | h
      · exact .inl (by simp [Destination.flows])
      · exact .inr (ih h)
  | case2 opening openings d rest hne ih =>
      rw [List.flatMap_cons, List.mem_append]
      exact .inr (ih h)
  | case3 openings destinations hne => cases h

/-! ## Lists of branches -/

theorem Destination.assemble_eq (b : Builder) (opening : Opening)
    (d : Destination) :
    d.assemble b opening = (seededFlows [opening] [d]).mapM b.runBranch := by
  match d, opening with
  | .target _, .target _ | .target _, .seed _ | .flow _, .target _ =>
      simp [Destination.assemble, seededFlows]
  | .flow steps, .seed channel =>
      simp [Destination.assemble, seededFlows, Builder.runBranch]

theorem seededFlows_cons (opening : Opening) (openings : List Opening)
    (d : Destination) (rest : List Destination) :
    seededFlows (opening :: openings) (d :: rest) = seededFlows [opening] [d] ++
      seededFlows openings rest := by
  cases opening <;> cases d <;> simp [seededFlows]

theorem assembleMappings_eq (b : Builder) (openings : List Opening)
    (mappings : List (String × Destination)) :
    assembleMappings b openings mappings =
      (seededFlows openings (mappings.map Prod.snd)).mapM b.runBranch := by
  induction mappings generalizing openings with
  | nil => cases openings <;> simp [assembleMappings, seededFlows]
  | cons mapping rest ih =>
      cases openings with
      | nil => simp [assembleMappings, seededFlows]
      | cons opening openings =>
          rw [assembleMappings, List.map_cons, seededFlows_cons, List.mapM_append,
            Destination.assemble_eq, ih]

theorem assembleRecipients_eq (b : Builder) (openings : List Opening)
    (recipients : List (Option String × Destination)) :
    assembleRecipients b openings recipients =
      (seededFlows openings (recipients.map Prod.snd)).mapM b.runBranch := by
  induction recipients generalizing openings with
  | nil => cases openings <;> simp [assembleRecipients, seededFlows]
  | cons recipient rest ih =>
      cases openings with
      | nil => simp [assembleRecipients, seededFlows]
      | cons opening openings =>
          rw [assembleRecipients, List.map_cons, seededFlows_cons, List.mapM_append,
            Destination.assemble_eq, ih]

theorem assembleSides_eq (b : Builder) (seeds : List Channel)
    (sides : List (ChannelPlan × List Step)) :
    assembleSides b seeds sides =
      (seeds.zip (sides.map Prod.snd)).mapM b.runBranch := by
  induction sides generalizing seeds with
  | nil => cases seeds <;> simp [assembleSides]
  | cons side rest ih =>
      cases seeds with
      | nil => simp [assembleSides]
      | cons seed seeds => simp [assembleSides, ih, Builder.runBranch]

theorem assembleSubscribers_eq (b : Builder) (channel : Channel)
    (subscribers : List (List Step)) :
    assembleSubscribers b channel subscribers =
      (subscribers.map fun steps => (channel, steps)).mapM b.runBranch := by
  induction subscribers with
  | nil => simp [assembleSubscribers]
  | cons steps rest ih => simp [assembleSubscribers, ih, Builder.runBranch]

/-! ## Steps that answer -/

theorem Assembly.eq_of_yields_parseOptional {text : Option String}
    {e : Option Expression} {w w' : Workshop}
    (h : Yields (parseOptional text) w e w') : w' = w := by
  match text with
  | none => exact (yields_pure.1 h).2
  | some text =>
      obtain ⟨e, h, -⟩ := yields_map.1 h
      unfold parse at h
      split at h
      · exact (yields_pure.1 h).2
      · exact absurd h not_yields_fail

namespace Step

variable {b b' : Builder} {w w' : Workshop}

/-- A flow that is renamed makes its claims over to its new id. A nested
builder stays as it is. -/
theorem of_yields_withId {id : String}
    (h : Yields ((Step.withId id).assemble b) w b' w') :
    b.nested = true ∧ b' = b ∧ w' = w ∨
    b.nested = false ∧ b' = { b with flowId := id } ∧
    w' = { w with claims := w.claims.rename b.session b.flowId id } := by
  rw [assemble, Builder.yields_guarded, Builder.withId] at h
  split at h
  · next hn => exact .inl ⟨hn, yields_pure.1 h⟩
  · next hn =>
      simp only [yields_bind, yields_updateClaims, yields_pure] at h
      obtain ⟨_, _, ⟨claims, hclaims, rfl⟩, rfl, rfl⟩ := h
      cases hclaims
      exact .inr ⟨by simpa using hn, rfl, rfl⟩

/-- A flow that is moved takes its claims along. A nested builder stays as it
is. -/
theorem of_yields_withSession {session : SessionId}
    (h : Yields ((Step.withSession session).assemble b) w b' w') :
    b.nested = true ∧ b' = b ∧ w' = w ∨
    b.nested = false ∧ b' = { b with session } ∧
    ∃ claims, w.claims.transfer b.session session b.flowId = .ok claims ∧
      w' = { w with claims } := by
  rw [assemble, Builder.yields_guarded, Builder.withSession] at h
  split at h
  · next hn => exact .inl ⟨hn, yields_pure.1 h⟩
  · next hn =>
      simp only [yields_bind, yields_transferClaims, yields_pure] at h
      obtain ⟨_, _, ⟨⟨claims, hclaims, rfl⟩, -⟩, rfl, rfl⟩ := h
      exact .inr ⟨by simpa using hn, rfl, claims, hclaims, rfl⟩

/-- A fresh start throws the builder away, and puts one in its place on which
nothing has been called. -/
theorem of_yields_fresh (h : Yields (Step.fresh.assemble b) w b' w') :
    (∃ flowId session,
      b' = { flowId, session, nested := false, config := {}, registry := .empty,
             cursor := {}, namedInput := none, input := none }) ∧
      w'.nextComponent = w.nextComponent ∧ w'.attached = w.attached := by
  rw [assemble_fresh, yields_bind] at h
  obtain ⟨_, w₁, hdiscard, hnew⟩ := h
  have hw : w₁.nextComponent = w.nextComponent ∧ w₁.attached = w.attached := by
    unfold Builder.discard at hdiscard
    split at hdiscard
    · rw [(yields_pure.1 hdiscard).2]
      exact ⟨rfl, rfl⟩
    · rw [yields_release.1 hdiscard]
      exact ⟨rfl, rfl⟩
  simp only [Builder.new, Builder.withConfig, yields_bind, yields_newFlowId,
    yields_newSession, yields_pure] at hnew
  obtain ⟨_, _, ⟨-, rfl⟩, _, _, ⟨-, rfl⟩, rfl, rfl⟩ := hnew
  exact ⟨⟨_, _, rfl⟩, hw⟩

theorem of_yields_channel {plan : SourcePlan}
    (h : Yields ((Step.channel plan).assemble b) w b' w') :
    ∃ source w₁, Yields plan.make w source w₁ ∧
      Yields (b.channel source) w₁ b' w' := by
  rw [assemble, Builder.yields_guarded, yields_bind] at h
  exact h

theorem of_yields_endpoint {plan : EndpointPlan}
    {sides : List (ChannelPlan × List Step)}
    (h : Yields ((Step.endpoint plan sides).assemble b) w b' w') :
    ∃ handler w₁ seeds w₂ spec input w₃ branches w₄ closed w₅,
      Yields plan.handler.make w handler w₁ ∧
      YieldsAll (fun side => side.1.make) w₁ sides seeds w₂ ∧
      Yields (resolveInput b.cursor.channel handler) w₂ input w₃ ∧
      YieldsAll b.runBranch w₃ (seeds.zip (sides.map Prod.snd)) branches w₄ ∧
      YieldsAll (fun br => br.leaveOpen b) w₄ branches closed w₅ ∧
      Yields (b.wire spec input (closed.map Branch.registry)) w₅ b' w' := by
  rw [assemble, Builder.yields_guarded] at h
  simp only [yields_bind, Builder.yields_ensureOpen, assembleSides_eq] at h
  obtain ⟨handler, w₁, hm, seeds, w₂, hs, _, _, ⟨-, rfl⟩, input, w₃, hi, _, _,
    hp, branches, w₄, hb, closed, w₅, hl, hw⟩ := h
  obtain rfl := eq_of_yields_checkPoller hp
  exact ⟨handler, w₁, seeds, _, _, input, _, branches, w₄, closed, w₅, hm,
    yieldsAll_of_mapM hs, hi, yieldsAll_of_mapM hb, yieldsAll_of_mapM hl, hw⟩

theorem of_yields_wireTap {plan : TapPlan} {d : Destination}
    (h : Yields ((Step.wireTap plan d).assemble b) w b' w') :
    ∃ opening w₁ b₁ c w₂ flow w₃ tap,
      Yields d.openUp w opening w₁ ∧
      Yields (b.tapPoint "wire-tap") w₁ (b₁, c) w₂ ∧
      YieldsAll b₁.runBranch w₂ (seededFlows [opening] [d]) flow w₃ ∧
      Yields (b₁.finishTap c tap flow) w₃ b' w' := by
  rw [assemble, Builder.yields_guarded] at h
  simp only [yields_bind, Destination.assemble_eq] at h
  obtain ⟨opening, w₁, ho, selector, w₁', hp, ⟨b₁, c⟩, w₂, ht, flow, w₃, hf, hw⟩ :=
    h
  obtain rfl := eq_of_yields_parseOptional hp
  exact ⟨opening, _, b₁, c, w₂, flow, w₃, _, ho, ht, yieldsAll_of_mapM hf, hw⟩

theorem of_yields_intercept {plan : InterceptorPlan}
    (h : Yields ((Step.intercept plan).assemble b) w b' w') :
    ∃ interceptor w₁, Yields plan.make w interceptor w₁ ∧
      Yields (b.intercept interceptor) w₁ b' w' := by
  rw [assemble, Builder.yields_guarded, yields_bind] at h
  exact h

theorem of_yields_route {plan : RouterPlan} {mappings : List (String × Destination)}
    (h : Yields ((Step.route plan mappings).assemble b) w b' w') :
    ∃ parts w₁ branches w₂, Yields (plan.make mappings) w parts w₁ ∧
      YieldsAll b.runBranch w₁
        (seededFlows (parts.openings.map Prod.snd) (mappings.map Prod.snd)) branches
        w₂ ∧
      b.Routed branches w₂ b' w' := by
  rw [assemble, Builder.yields_guarded] at h
  simp only [yields_bind, yields_ensure, Builder.yields_ensureOpen,
    assembleMappings_eq] at h
  obtain ⟨parts, w₁, hm, _, _, ⟨-, rfl⟩, _, _, ⟨-, rfl⟩, branches, w₂, hb, hf⟩ := h
  exact ⟨parts, _, branches, w₂, hm, yieldsAll_of_mapM hb,
    Builder.of_yields_finishRoute hf⟩

theorem of_yields_routeToRecipients {plan : RecipientsPlan}
    {recipients : List (Option String × Destination)}
    (h : Yields ((Step.routeToRecipients plan recipients).assemble b) w b' w') :
    ∃ parts w₁ branches w₂, Yields (plan.make recipients) w parts w₁ ∧
      YieldsAll b.runBranch w₁
        (seededFlows (parts.openings.map Prod.snd) (recipients.map Prod.snd))
        branches w₂ ∧
      b.Routed branches w₂ b' w' := by
  rw [assemble, Builder.yields_guarded] at h
  simp only [yields_bind, yields_ensure, Builder.yields_ensureOpen,
    assembleRecipients_eq] at h
  obtain ⟨parts, w₁, hm, _, _, ⟨-, rfl⟩, _, _, ⟨-, rfl⟩, branches, w₂, hb, hf⟩ := h
  exact ⟨parts, _, branches, w₂, hm, yieldsAll_of_mapM hb,
    Builder.of_yields_finishRecipients hf⟩

theorem of_yields_publishSubscribe {plan : FanOutPlan}
    {subscribers : List (List Step)}
    (h : Yields ((Step.publishSubscribe plan subscribers).assemble b) w b' w') :
    ∃ given w₁ c w₂ b₁ w₃ branches w₄,
      Yields (plan.channel.mapM ChannelPlan.make) w given w₁ ∧
      Yields (Builder.fanOutChannel plan given) w₁ c w₂ ∧
      Yields (b.openFanOut c) w₂ b₁ w₃ ∧
      YieldsAll b₁.runBranch w₃ (subscribers.map fun steps =>
        (c, steps)) branches w₄ ∧
      Yields (b₁.finishFanOut branches) w₄ b' w' := by
  rw [assemble, Builder.yields_guarded] at h
  simp only [yields_bind, assembleSubscribers_eq] at h
  obtain ⟨given, w₁, hm, c, w₂, hc, b₁, w₃, ho, branches, w₄, hb, hf⟩ := h
  exact ⟨given, w₁, c, w₂, b₁, w₃, branches, w₄, hm, hc, ho,
    yieldsAll_of_mapM hb, hf⟩

theorem of_yields_scatterRecipients {plan : ScatterGatherPlan}
    {list : RecipientsPlan} {recipients : List (Option String × Destination)}
    (h : Yields ((Step.scatterGather plan (.recipients list recipients)).assemble b)
      w b' w') :
    ∃ release w₁ parts w₂ gather scattering w₃,
      Yields plan.gather.release.make w release w₁ ∧
      Yields (list.make recipients) w₁ parts w₂ ∧
      gather.key = ⟨w₂.nextComponent⟩ ∧
      scattering.channel.key = ⟨w₂.nextComponent + 1⟩ ∧
      scattering.list ≠ none ∧
      YieldsAll b.runBranch { w₂ with nextComponent := w₂.nextComponent + 1 + 1 }
        (seededFlows (parts.openings.map Prod.snd) (recipients.map Prod.snd))
        scattering.branches w₃ ∧
      Yields (b.finishScatterGather plan release scattering gather) w₃ b' w' := by
  rw [assemble, Builder.yields_guarded] at h
  simp only [Scatter.make, Scatter.assemble, yields_bind, yields_ensure,
    Builder.yields_ensureOpen, yields_implicitChannel, yields_pure,
    assembleRecipients_eq] at h
  obtain ⟨release, w₁, hr, _, w₂, ⟨parts, _, hm, rfl, rfl⟩, _, _, ⟨-, rfl⟩, _,
    _, ⟨-, rfl⟩, gather, _, ⟨rfl, rfl⟩, scattering, w₃,
    ⟨_, _, ⟨rfl, rfl⟩, branches, _, hb, rfl, rfl⟩, hf⟩ := h
  exact ⟨release, w₁, parts, _, _, _, _, hr, hm, rfl, rfl, by simp,
    yieldsAll_of_mapM hb, hf⟩

theorem ne_nil_of_check {plan : ScatterGatherPlan} {config : Config}
    {fan : FanOutPlan} {subscribers : List (List Step)}
    (h : plan.check config (.publish fan subscribers) = .ok ()) :
    subscribers ≠ [] := by
  rintro rfl
  unfold ScatterGatherPlan.check at h
  split at h <;> cases h

theorem of_yields_scatterPublish {plan : ScatterGatherPlan} {fan : FanOutPlan}
    {subscribers : List (List Step)}
    (h : Yields ((Step.scatterGather plan (.publish fan subscribers)).assemble b)
      w b' w') :
    ∃ release w₁ given w₂ gather scattering w₃ w₄,
      Yields plan.gather.release.make w release w₁ ∧
      Yields (fan.channel.mapM ChannelPlan.make) w₁ given w₂ ∧
      subscribers ≠ [] ∧ gather.key = ⟨w₂.nextComponent⟩ ∧ scattering.list = none ∧
      Yields (Builder.fanOutChannel fan given) { w₂ with
        nextComponent := w₂.nextComponent + 1 } scattering.channel w₃ ∧
      YieldsAll b.runBranch w₃ (subscribers.map fun steps =>
        (scattering.channel, steps)) scattering.branches w₄ ∧
      Yields (b.finishScatterGather plan release scattering gather) w₄ b' w' := by
  rw [assemble, Builder.yields_guarded] at h
  simp only [Scatter.make, Scatter.assemble, yields_bind, yields_ensure,
    Builder.yields_ensureOpen, yields_implicitChannel, yields_pure,
    assembleSubscribers_eq] at h
  obtain ⟨release, w₁, hr, _, w₂, ⟨given, _, hm, rfl, rfl⟩, _, _, ⟨hk, rfl⟩,
    _, _, ⟨-, rfl⟩, gather, _, ⟨rfl, rfl⟩, scattering, w₄,
    ⟨c, w₃, hc, branches, _, hb, rfl, rfl⟩, hf⟩ := h
  exact ⟨release, w₁, given, _, _, _, w₃, _, hr, hm, ne_nil_of_check hk, rfl,
    rfl, hc, yieldsAll_of_mapM hb, hf⟩

end Step

theorem of_yields_assembleSteps_cons {s : Step} {rest : List Step} {b b' : Builder}
    {w w' : Workshop} (h : Yields (assembleSteps b (s :: rest)) w b' w') :
    ∃ b₁ w₁, Yields (s.assemble b) w b₁ w₁ ∧
      Yields (assembleSteps b₁ rest) w₁ b' w' := by
  rw [assembleSteps, yields_bind] at h
  exact h

end FlowAssembly
