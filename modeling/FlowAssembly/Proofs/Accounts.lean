import FlowAssembly.Builder.Finish
import FlowAssembly.Proofs.Repliers
import FlowAssembly.Proofs.Running

/-!
# The account of a whole step

Every step that answers, with all the flows in it, has paid for the reply
producers that it brought in. A branch is paid for while it is assembled, by
claims of the flow around it, since a nested builder works under its parent's
id and session; its parent then takes it in at no further cost.

The induction is on programs. A step that changes whose flow it is stands
outside the account, except within a branch, where renaming and moving do
nothing.
-/

namespace FlowAssembly

open Assembly

variable {h : HandlerKey}

/-- The steps of a flow pay for what they bring in, when they run in a nested
builder. -/
def PaysWithin (h : HandlerKey) (steps : List Step) : Prop :=
  ∀ {b b' : Builder} {w w' : Workshop}, b.nested = true →
    Yields (assembleSteps b steps) w b' w' → b.Covers h 0 w b' w'

theorem paid_runBranch {b : Builder} {flow : Channel × List Step} {br : Branch}
    {w w' : Workshop} (hf : PaysWithin h flow.2)
    (hy : Yields (b.runBranch flow) w br w') :
    Branch.Paid h b [] w [br] w' := by
  rw [Builder.runBranch, yields_bind] at hy
  obtain ⟨nested, w₁, hs, hi⟩ := hy
  have hcov := hf rfl hs
  obtain ⟨rfl, hle⟩ :=
    Builder.count_intoBranch_le (h := h) (hcov.same.nested.trans rfl) hi
  have hcount := hcov.count
  have hstart : (b.branch flow.1).repliers.count h = 0 := by
    simp [Builder.branch, Builder.repliers]
  rw [hstart] at hcount
  simp only [Branch.Paid, Branch.repliers, List.flatMap_nil, List.flatMap_cons,
    List.append_nil, List.count_nil]
  have hbranch : ∀ v : Workshop, v.owned (b.branch flow.1) h = v.owned b h :=
    fun _ => rfl
  rw [hbranch, hbranch] at hcount
  omega

theorem paid_runBranches {b : Builder} {flows : List (Channel × List Step)}
    {branches : List Branch} {w w' : Workshop}
    (hf : ∀ flow ∈ flows, PaysWithin h flow.2)
    (hy : YieldsAll b.runBranch w flows branches w') :
    Branch.Paid h b [] w branches w' := by
  induction hy with
  | nil w => simp [Branch.Paid]
  | cons hbr _ ih =>
      have hone := paid_runBranch (hf _ List.mem_cons_self) hbr
      have hrest := ih fun flow hm => hf flow (List.mem_cons_of_mem _ hm)
      simp only [Branch.Paid, Branch.repliers, List.flatMap_cons, List.flatMap_nil,
        List.append_nil, List.count_append, List.count_nil] at hone hrest ⊢
      omega

namespace Builder

variable {b b' : Builder} {m : Nat} {w w₁ w' : Workshop}

/-- A call that takes in branches which were paid for while they were
assembled adds nothing to the account. -/
theorem Covers.of_branches {branches : List Branch}
    (hc : b.Covers h ((Branch.repliers branches).count h) w₁ b' w')
    (hp : Branch.Paid h b [] w branches w₁) :
    b.Covers h 0 w b' w' := by
  have hall := hc.of_paid hp
  simpa [Branch.repliers] using hall

/-- Making arguments first changes no account. -/
theorem Covers.after_supply (hc : b.Covers h m w₁ b' w') (hs : w.Supplied w₁) :
    b.Covers h m w b' w' :=
  hc.of_claims hs.claims rfl

end Builder

/-! ## By the kind of step -/

namespace Step

variable {b b' : Builder} {w w' : Workshop}

theorem covers_channel {plan : SourcePlan}
    (hy : Yields ((Step.channel plan).assemble b) w b' w') :
    b.Covers h 0 w b' w' := by
  obtain ⟨source, w₁, hm, hc⟩ := of_yields_channel hy
  exact (Builder.covers_channel hc).after_supply (plan.make_leaves.of_yields hm)

theorem covers_intercept {plan : InterceptorPlan}
    (hy : Yields ((Step.intercept plan).assemble b) w b' w') :
    b.Covers h 0 w b' w' := by
  obtain ⟨interceptor, w₁, hm, hc⟩ := of_yields_intercept hy
  exact (Builder.covers_intercept hc).after_supply (plan.make_leaves.of_yields hm)

theorem covers_endpoint {plan : EndpointPlan}
    {sides : List (ChannelPlan × List Step)}
    (hf : ∀ flow ∈ (Step.endpoint plan sides).flows, PaysWithin h flow)
    (hy : Yields ((Step.endpoint plan sides).assemble b) w b' w') :
    b.Covers h 0 w b' w' := by
  obtain ⟨handler, w₁, seeds, w₂, spec, input, w₃, branches, w₄, closed, w₅,
    hm, hs, hi, hb, hl, hw⟩ :=
    of_yields_endpoint hy
  have hsup : w.Supplied w₃ :=
    Trans.trans (Trans.trans (plan.handler.make_leaves.of_yields hm)
      (supplied_of_yieldsAll (fun side => side.1.make_leaves) hs))
      ((resolveInput_leaves b.cursor.channel handler).of_yields hi)
  have hbranches : Branch.Paid h b [] w₃ branches w₄ :=
    paid_runBranches (fun flow hm => hf flow.2 (List.of_mem_zip hm).2) hb
  have hclosed : Branch.Paid h b branches w₄ closed w₅ :=
    Branch.paid_all Branch.paid_leaveOpen hl
  have hwire := Builder.covers_wire (h := h) hw
  rw [List.flatMap_map] at hwire
  have hclosing : b.Covers h ((Branch.repliers branches).count h) w₄ b' w' :=
    hwire.of_paid hclosed
  exact (hclosing.of_branches hbranches).after_supply hsup

theorem covers_wireTap {plan : TapPlan} {d : Destination}
    (hf : ∀ flow ∈ (Step.wireTap plan d).flows, PaysWithin h flow)
    (hy : Yields ((Step.wireTap plan d).assemble b) w b' w') :
    b.Covers h 0 w b' w' := by
  obtain ⟨opening, w₁, b₁, c, w₂, flow, w₃, tap, ho, ht, hb, hw⟩ :=
    of_yields_wireTap hy
  have hbranches : Branch.Paid h b₁ [] w₂ flow w₃ := by
    refine paid_runBranches (fun flow hm => hf flow.2 ?_) hb
    simpa [flows] using seededFlows_snd_mem hm
  have hpoint : b.Covers h 0 w₁ b₁ w₂ := Builder.covers_tapPoint ht
  have hrest : b₁.Covers h 0 w₂ b' w' :=
    (Builder.covers_finishTap hw).of_branches hbranches
  exact (hpoint.trans hrest).after_supply (d.openUp_leaves.of_yields ho)

theorem covers_route {plan : RouterPlan} {mappings : List (String × Destination)}
    (hf : ∀ flow ∈ (Step.route plan mappings).flows, PaysWithin h flow)
    (hy : Yields ((Step.route plan mappings).assemble b) w b' w') :
    b.Covers h 0 w b' w' := by
  obtain ⟨parts, w₁, branches, w₂, hm, hb, hr⟩ := of_yields_route hy
  have hbranches : Branch.Paid h b [] w₁ branches w₂ := by
    refine paid_runBranches (fun flow hm => hf flow.2 ?_) hb
    simpa [flows, List.flatMap_map] using seededFlows_snd_mem hm
  exact (hr.covers.of_branches hbranches).after_supply
    ((plan.make_leaves mappings).of_yields hm)

theorem covers_routeToRecipients {plan : RecipientsPlan}
    {recipients : List (Option String × Destination)}
    (hf : ∀ flow ∈ (Step.routeToRecipients plan recipients).flows,
      PaysWithin h flow)
    (hy : Yields ((Step.routeToRecipients plan recipients).assemble b) w b' w') :
    b.Covers h 0 w b' w' := by
  obtain ⟨parts, w₁, branches, w₂, hm, hb, hr⟩ := of_yields_routeToRecipients hy
  have hbranches : Branch.Paid h b [] w₁ branches w₂ := by
    refine paid_runBranches (fun flow hm => hf flow.2 ?_) hb
    simpa [flows, List.flatMap_map] using seededFlows_snd_mem hm
  exact (hr.covers.of_branches hbranches).after_supply
    ((plan.make_leaves recipients).of_yields hm)

theorem covers_publishSubscribe {plan : FanOutPlan} {subscribers : List (List Step)}
    (hf : ∀ flow ∈ (Step.publishSubscribe plan subscribers).flows,
      PaysWithin h flow)
    (hy : Yields ((Step.publishSubscribe plan subscribers).assemble b) w b' w') :
    b.Covers h 0 w b' w' := by
  obtain ⟨given, w₁, c, w₂, b₁, w₃, branches, w₄, hm, hc, ho, hb, hw⟩ :=
    of_yields_publishSubscribe hy
  have hbranches : Branch.Paid h b₁ [] w₃ branches w₄ := by
    refine paid_runBranches (fun flow hm => hf flow.2 ?_) hb
    obtain ⟨steps, hs, rfl⟩ := List.mem_map.1 hm
    exact hs
  have hopen : b.Covers h 0 w₂ b₁ w₃ := Builder.covers_openFanOut ho
  have hrest : b₁.Covers h 0 w₃ b' w' :=
    (Builder.covers_finishFanOut hw).of_branches hbranches
  have hsup : w.Supplied w₂ :=
    Trans.trans ((optional_make_leaves plan.channel).of_yields hm)
      ((Builder.fanOutChannel_leaves plan given).of_yields hc)
  exact (hopen.trans hrest).after_supply hsup

theorem covers_scatterGather {plan : ScatterGatherPlan} {scatter : Scatter}
    (hf : ∀ flow ∈ (Step.scatterGather plan scatter).flows, PaysWithin h flow)
    (hy : Yields ((Step.scatterGather plan scatter).assemble b) w b' w') :
    b.Covers h 0 w b' w' := by
  match scatter with
  | .recipients list recipients =>
      obtain ⟨release, w₁, parts, w₂, gather, scattering, w₃, hr, hm, -, -,
        -, hb, hw⟩ :=
        of_yields_scatterRecipients hy
      have hbranches : Branch.Paid h b [] w₂ scattering.branches w₃ := by
        refine paid_runBranches
          (w := { w₂ with nextComponent := w₂.nextComponent + 1 + 1 })
          (fun flow hm => hf flow.2 ?_) hb
        simpa [flows, List.flatMap_map] using seededFlows_snd_mem hm
      have hsup : w.Supplied w₂ :=
        Trans.trans (plan.gather.release.make_leaves.of_yields hr)
          ((list.make_leaves recipients).of_yields hm)
      exact ((Builder.covers_finishScatterGather hw).of_branches
        hbranches).after_supply hsup
  | .publish fan subscribers =>
      obtain ⟨release, w₁, given, w₂, gather, scattering, w₃, w₄, hr, hm, -,
        -, -, hc, hb, hw⟩ :=
        of_yields_scatterPublish hy
      have hbranches : Branch.Paid h b [] w₃ scattering.branches w₄ := by
        refine paid_runBranches (fun flow hm => hf flow.2 ?_) hb
        obtain ⟨steps, hs, rfl⟩ := List.mem_map.1 hm
        exact hs
      have hchannel : w₂.Supplied w₃ := by
        have hs := (Builder.fanOutChannel_leaves fan given).of_yields hc
        exact Trans.trans (newComponentKey_leaves w₂) hs
      have hsup : w.Supplied w₃ :=
        Trans.trans (Trans.trans (plan.gather.release.make_leaves.of_yields hr)
          ((optional_make_leaves fan.channel).of_yields hm)) hchannel
      exact ((Builder.covers_finishScatterGather hw).of_branches
        hbranches).after_supply hsup

end Step

/-! ## All programs -/

/-- A step that answers has paid for every reply producer that it brought into
its flow, at any depth. -/
theorem Step.covers {s : Step} {b b' : Builder} {w w' : Workshop}
    (hf : ∀ flow ∈ s.flows, PaysWithin h flow)
    (hown : b.nested = true ∧ s.isFresh = false ∨ s.changesFlow = false)
    (hy : Yields (s.assemble b) w b' w') : b.Covers h 0 w b' w' := by
  match s with
  | .channel plan => exact covers_channel hy
  | .endpoint plan sides => exact covers_endpoint hf hy
  | .wireTap plan d => exact covers_wireTap hf hy
  | .intercept plan => exact covers_intercept hy
  | .route plan mappings => exact covers_route hf hy
  | .routeToRecipients plan recipients => exact covers_routeToRecipients hf hy
  | .publishSubscribe plan subscribers => exact covers_publishSubscribe hf hy
  | .scatterGather plan scatter => exact covers_scatterGather hf hy
  | .withId id =>
      rcases hown with ⟨hn, -⟩ | hown
      · simp only [assemble, Builder.yields_guarded, Builder.withId, hn, if_true,
          yields_pure] at hy
        obtain ⟨rfl, rfl⟩ := hy
        exact .refl rfl
      · cases hown
  | .withSession session =>
      rcases hown with ⟨hn, -⟩ | hown
      · simp only [assemble, Builder.yields_guarded, Builder.withSession, hn,
          if_true, yields_pure] at hy
        obtain ⟨rfl, rfl⟩ := hy
        exact .refl rfl
      · cases hown
  | .fresh =>
      rcases hown with ⟨-, hfresh⟩ | hown
      · cases hfresh
      · cases hown
  | .faulty cause =>
      rw [assemble, Builder.yields_guarded] at hy
      exact absurd hy not_yields_throw

theorem paysWithin_of_contained {steps : List Step} (hc : Contained steps) :
    PaysWithin h steps := by
  revert hc
  refine Step.flow_induction
    (P := fun s => s.Contained → ∀ flow ∈ s.flows, PaysWithin h flow)
    (Q := fun steps => Contained steps → PaysWithin h steps) ?step ?nil ?cons steps
  case step =>
    intro s ih hc flow hm
    exact ih flow hm (hc.flow hm)
  case nil =>
    intro _ b b' w w' _ hy
    obtain ⟨rfl, rfl⟩ := yields_pure.1 hy
    exact .refl rfl
  case cons =>
    intro s rest hs hrest hc b b' w w' hn hy
    obtain ⟨hfresh, hin, hc⟩ := contained_cons.1 hc
    obtain ⟨b₁, w₁, hstep, hy⟩ := of_yields_assembleSteps_cons hy
    have hfirst := Step.covers (hs hin) (.inl ⟨hn, hfresh⟩) hstep
    exact hfirst.trans (hrest hc (hfirst.same.nested.trans hn) hy)

/-! ## Finished flows -/

theorem components_nameEntries (flowId : String) (seen : List String)
    (entries : List Entry) :
    (nameEntries flowId seen entries).map GraphEntry.component =
      entries.map Entry.component := by
  fun_induction nameEntries flowId seen entries with
  | case1 seen => rfl
  | case2 seen e rest name hn ih => simp [ih]
  | case3 seen e rest hn type ih => simp [ih]

namespace Builder

variable {b b' : Builder} {w w' : Workshop}

theorem components_toGraph (b : Builder) :
    b.toGraph.components = b.registry.components :=
  components_nameEntries b.flowId [] b.registry.entries

/-- A flow ends on a bridge of its own, or just as it stood. -/
theorem of_yields_closeImplicit (hy : Yields b.closeImplicit w b' w') :
    (b' = b ∧ w' = w ∧ ∀ c, b.cursor.channel = some (.channel c) →
      c.implicit = false) ∨
    (∃ c, b.cursor.channel = some (.channel c) ∧ c.implicit = true ∧
      Yields b.bridge w b' w') := by
  rw [closeImplicit] at hy
  split at hy
  · next c hc =>
      split at hy
      · next himp =>
          split at hy
          · exact absurd hy not_yields_fail
          · exact .inr ⟨c, hc, himp, hy⟩
      · next himp =>
          obtain ⟨rfl, rfl⟩ := yields_pure.1 hy
          refine .inl ⟨rfl, rfl, fun c' hc' => ?_⟩
          obtain rfl : c = c' := by simpa [hc] using hc'
          simpa using himp
  · next hne =>
      obtain ⟨rfl, rfl⟩ := yields_pure.1 hy
      exact .inl ⟨rfl, rfl, fun c hc => absurd hc (hne c)⟩

/-- A finished flow is its builder, closed and with the held-back taps placed,
and in an order that was checked. -/
theorem of_yields_finish {g : FlowGraph} (hy : Yields b.finish w g w') :
    ∃ b₁, Yields b.closeImplicit w b₁ w' ∧
      b₁.flushDeferred.registry.validate = .ok () ∧
      g = b₁.flushDeferred.toGraph := by
  simp only [finish, yields_guarded, yields_bind, yields_ensure, yields_pure] at hy
  obtain ⟨_, _, ⟨-, rfl⟩, b₁, _, hc, _, _, ⟨-, rfl⟩, _, _, ⟨hv, rfl⟩, rfl, rfl⟩ :=
    hy
  exact ⟨b₁, hc, hv, rfl⟩

/-- A finished flow has no reply producer that was not paid for. -/
theorem count_finish_le {g : FlowGraph} (hy : Yields b.finish w g w') :
    g.flowId = b.flowId ∧
    g.repliers.count h + w.owned b h ≤ b.repliers.count h + w'.owned b h := by
  obtain ⟨b₁, hc, -, rfl⟩ := of_yields_finish hy
  have hcov : ∀ h, b.Covers h 0 w b₁ w' := by
    intro h
    rcases of_yields_closeImplicit hc with ⟨rfl, rfl, -⟩ | ⟨c, -, -, hb⟩
    · exact .refl rfl
    · exact covers_bridge hb
  refine ⟨((SameFlow.of_covers hcov).trans b₁.sameFlow_flushDeferred).flowId, ?_⟩
  have hcount := (hcov h).count
  have hflush := count_flushDeferred_le (h := h) b₁
  have hgraph :
      b₁.flushDeferred.toGraph.repliers = b₁.flushDeferred.registry.repliers := by
    rw [FlowGraph.repliers, components_toGraph]
    rfl
  rw [hgraph]
  simp only [repliers, List.count_append] at hflush hcount ⊢
  omega

end Builder

end FlowAssembly
