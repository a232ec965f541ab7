import FlowAssembly.Proofs.Forecast
import FlowAssembly.Proofs.Laying

/-!
# Calls of each kind lay their flows out

One kind of call after the other: it keeps what is in one piece, and takes in
each of its flows as a whole. The flows are taken as laid out; the induction
that discharges this is on programs, and there every flow is one without
fan-outs.
-/

namespace FlowAssembly

open Assembly Workshop

namespace Sketch

variable {s : Sketch} {sides ps : List (List Mark)} {reader : List Mark}

theorem Narrow.lead_eq (h : s.Narrow) (sides : List (List Mark)) :
    s.lead sides = s.base ++ sides.flatten ++ s.tip.marks := by
  unfold lead
  rcases h.cases with ht | ⟨k, ht⟩
  · simp [ht, Tip.marks]
  · simp [ht, Tip.marks]

/-- Side flows stand in one piece in front of the endpoint. -/
theorem Narrow.infix_wired (h : s.Narrow) (sides : List (List Mark))
    (reader : List Mark) :
    sides.flatten <:+: (s.wired sides reader).base :=
  ⟨s.base, s.tip.marks ++ reader ++ s.taps.flatten, by simp [wired, h.lead_eq]⟩

theorem keeps_standing {k : ComponentKey} (ht : s.taps = []) :
    s.Keeps (s.standing k) :=
  keeps_of_base ht List.prefix_rfl

end Sketch

namespace Builder

variable {b : Builder} {s : Sketch} {handler : Handler} {input : ResolvedInput}
  {w w' : Workshop}

/-- What is resolved for an endpoint stands behind what the flow is done with,
or is a name. -/
theorem Traced.feeds (hd : b.Traced s) (hn : s.Narrow)
    (hy : Yields (Assembly.resolveInput b.cursor.channel handler) w input w') :
    b.Feeds s.base (input.target.channel?.map Channel.key) ∧
    s.tip.marks ++ input.marks =
      ((input.target.channel?.map Channel.key).map Mark.channel).toList := by
  have hvacant : (∀ c, b.cursor.channel ≠ some (.channel c)) → s.tip = .vacant :=
    fun hc => by
      rw [← Tip.key?_eq_none, ← hd.current]
      exact currentKey?_eq_none.2 hc
  rcases of_yields_resolveInput hy
    with ⟨c, hc, rfl, rfl⟩ | ⟨name, hc, rfl, rfl⟩ | ⟨c, hc, rfl, hk, rfl⟩
  · have ht := hd.bare hn hc
    exact ⟨.stood hc (hd.marks_of_bare ht),
      by simp [ht, Tip.marks, ResolvedInput.marks, Target.channel?]⟩
  · have ht := hvacant fun c => by simp [hc]
    refine ⟨?_, by simp [ht, Tip.marks, ResolvedInput.marks, Target.channel?]⟩
    rw [← hd.base_of_vacant ht]
    exact .named hc
  · have hnone : ∀ source ∈ b.cursor.channel, source.target? = none := by
      rcases hc with ⟨id, hc⟩ | hc
      · rw [hc]
        rintro source ⟨⟩
        rfl
      · rw [hc]
        exact fun source hsource => absurd hsource (Option.not_mem_none source)
    have ht := hvacant fun c => by rcases hc with ⟨id, hc⟩ | hc <;> simp [hc]
    refine ⟨?_, by simp [ht, Tip.marks, ResolvedInput.marks, Target.channel?]⟩
    rw [← hd.base_of_vacant ht]
    exact .made hnone

end Builder

namespace Step

variable {b b' : Builder} {sk : Sketch} {w w' : Workshop}

theorem laid_channel (plan : SourcePlan) : (Step.channel plan).Laid := by
  intro b b' sk w w' hd hr hy
  obtain ⟨source, w₁, hm, hc⟩ := of_yields_channel hy
  have hplaced : (Step.channel plan).placed = plan.placed := by
    simp [Step.placed_eq, ownPlaced, flows]
  rw [hplaced] at hr
  have hlaid : ∀ sk', b'.Traced sk' → sk'.Narrow →
      w.Spent (sk.keys ++ plan.placed) w' sk'.keys → sk.Passes sk' →
      ∃ sk', (Step.channel plan).LaysOut b w b' w' sk sk' :=
    fun sk' htraced hnarrow hspent hpasses =>
      ⟨sk', laysOut_of_passes rfl hd hy htraced hnarrow (by rwa [hplaced]) hpasses
          (setsSides_of_ne fun _ _ heq => by cases heq) (takesIn_of_flows rfl sk')⟩
  rcases SourcePlan.of_yields_make hm with ⟨c, rfl, -, hmade⟩ | ⟨hne, -, hmade⟩
  · have hmade := hmade.prepend sk.keys
    have hroom := hr.of_spent hmade
    obtain ⟨s₁, hcloses, htaps, ⟨c', hc', htraced, hspent⟩ | ⟨hc', -⟩⟩ :=
      hd.traced.channel (fun c' h => by cases h; exact hroom) hroom.of_append hc
    · exact hlaid _ htraced (Sketch.narrow_of_bare rfl)
        (by cases hc'; exact hmade.trans hspent)
        (hcloses.passes (by exact List.prefix_rfl) rfl)
    · exact absurd rfl (hc' c)
  · have hmade := hmade.prepend sk.keys
    rw [List.append_nil] at hmade
    obtain ⟨s₁, hcloses, htaps, ⟨c, hc', -⟩ | ⟨-, htraced, hspent⟩⟩ :=
      hd.traced.channel (fun c' h => absurd h (hne c')) (hr.of_spent hmade) hc
    · exact absurd hc' (hne c)
    · exact hlaid _ htraced (Sketch.narrow_of_vacant hcloses.vacant)
        (hmade.trans hspent) (hcloses.passes List.prefix_rfl htaps)

/-- A tap point is in a narrow place, and nothing that was in one piece is
broken up for it. -/
theorem stands_tapPoint {attempted : String} {c : Channel} (hd : b.Traced sk)
    (hn : sk.Narrow) (hr : w.Room sk.keys)
    (hy : Yields (b.tapPoint attempted) w (b', c) w') :
    ∃ s', b'.Traced s' ∧ s'.Narrow ∧ w.Spent sk.keys w' s'.keys ∧ s'.tip ≠ .vacant ∧
      sk.Keeps s' := by
  obtain ⟨s', htraced, hspent, hne, rfl | ⟨hv, rfl⟩⟩ := hd.tapPoint hr hy
  · exact ⟨s', htraced, hn, hspent, hne, .refl _⟩
  · exact ⟨_, htraced, Sketch.narrow_of_bare rfl, hspent, hne,
      Sketch.keeps_standing (hd.vacant hv)⟩

theorem laid_intercept (plan : InterceptorPlan) : (Step.intercept plan).Laid := by
  intro b b' sk w w' hd hr hy
  obtain ⟨interceptor, w₁, hm, hi⟩ := of_yields_intercept hy
  obtain ⟨c, w₂, ht, rfl⟩ := Builder.of_yields_intercept hi
  have hplaced : (Step.intercept plan).placed = [] := rfl
  rw [hplaced, List.append_nil] at hr
  have hmade := (plan.make_leaves.of_yields hm).spent sk.keys
  obtain ⟨s', htraced, hnarrow, hspent, -, hkeeps⟩ :=
    stands_tapPoint hd.traced hd.narrow (hr.of_spent hmade) ht
  refine ⟨s', laysOut_of_lingers rfl hd hy htraced hnarrow ?_ hkeeps
      (takesIn_of_flows rfl s')⟩
  rw [hplaced, List.append_nil]
  exact hmade.trans ⟨hspent.count, hspent.supply⟩

/-- A call that leaves the registry and the cursor alone. -/
theorem laid_of_same {s : Step} (hl : s.lingers = true) (hflows : s.flows = [])
    (hsame : ∀ {b b' : Builder} {w w' : Workshop}, Yields (s.assemble b) w b' w' →
      b'.registry = b.registry ∧ b'.cursor = b.cursor ∧
      w.nextComponent = w'.nextComponent) : s.Laid := by
  intro b b' sk w w' hd hr hy
  obtain ⟨hregistry, hcursor, hnext⟩ := hsame hy
  refine ⟨sk, laysOut_of_lingers hl hd hy (hd.traced.of_same hregistry hcursor)
      hd.narrow ⟨fun k => ?_, fun k => ?_⟩ (.refl sk) (takesIn_of_flows hflows sk)⟩
  · rw [List.count_append, hnext]
    omega
  · exact Nat.le_of_eq (by rw [hnext])

theorem laid_withId (id : String) : (Step.withId id).Laid := by
  refine laid_of_same rfl rfl fun {b b' w w'} hy => ?_
  rcases of_yields_withId hy with ⟨-, rfl, rfl⟩ | ⟨-, rfl, rfl⟩
  · exact ⟨rfl, rfl, rfl⟩
  · exact ⟨rfl, rfl, rfl⟩

theorem laid_withSession (session : SessionId) :
    (Step.withSession session).Laid := by
  refine laid_of_same rfl rfl fun {b b' w w'} hy => ?_
  rcases of_yields_withSession hy with ⟨-, rfl, rfl⟩ | ⟨-, rfl, claims, -, rfl⟩
  · exact ⟨rfl, rfl, rfl⟩
  · exact ⟨rfl, rfl, rfl⟩

/-- A flow that a tap leads into is held back as a whole. -/
theorem laid_wireTap {plan : TapPlan} {d : Destination}
    (hf : ∀ flow ∈ (Step.wireTap plan d).flows, FlowAssembly.Laid flow) :
    (Step.wireTap plan d).Laid := by
  intro b b' sk w w' hd hr hy
  obtain ⟨st, w₂, branches, w₃, w₄, hst, hb, hclose, hattach⟩ := Step.of_yields hy
  have hstage := hst
  simp only [stage, yields_bind, yields_pure] at hst
  obtain ⟨opening, w₁, ho, selector, _, hp, ⟨b₁, c⟩, _, ht, rfl, rfl⟩ := hst
  obtain rfl := eq_of_yields_parseOptional hp
  obtain ⟨closed, _, hl, hb'⟩ := yields_bind.1 hclose
  obtain ⟨rfl, rfl⟩ := yields_pure.1 hb'
  obtain ⟨-, rfl⟩ := yields_addInterceptor.1 hattach
  obtain ⟨hflows, hopen⟩ := d.of_yields_openUp ho
  generalize htaps : seededFlows [opening] [d] = taps at hb hflows hopen
  have hplaced : (Step.wireTap plan d).placed = taps.flatMap fun flow =>
      FlowAssembly.placed flow.2 := by
    simp [Step.placed_eq, ownPlaced, flows, ← hflows, List.flatMap_map]
  rw [hplaced] at hr
  have hroom₁ := hr.of_spent
    (spent_seeds hopen sk.keys
      (taps.flatMap fun flow => FlowAssembly.placed flow.2))
  obtain ⟨s₁, htraced, hnarrow, hspent, hne, hkeeps⟩ :=
    stands_tapPoint hd.traced hd.narrow hroom₁.of_append.of_append ht
  have hroom₂ := (hroom₁.of_spent ((hspent.append _).append _))
  obtain ⟨ts, hrows, hrooms, hran⟩ :=
    rows_runBranches (forall_flows hf hflows) (room_flows hroom₂) hb
  obtain ⟨hshut, -, hclosed⟩ := closed_all (R := Sketch.Shut)
    (fun hd hn hy => hd.leaveOpen hn hy) hrows.traced hrooms (yieldsAll_of_mapM hl)
  generalize hps : closed.map (fun br => br.registry.marks) = ps at hshut hclosed
  refine ⟨s₁.held ps,
    laysOut_of_lingers rfl hd hy ⟨htraced.marks, ?_, htraced.current,
      htraced.pending, htraced.behind, fun hv => absurd hv hne⟩ hnarrow ?_
      (hkeeps.trans (s₁.keeps_held ps))
      (takesIn_of_rows hstage (by rw [htaps]; exact hrows)
        (Sketch.takes_held hshut hrows.narrow fun p hp => ?_))⟩
  · rw [← hps]
    simp [Sketch.held, htraced.taps]
  · have hspends := spent_tapped hopen hspent (hran.trans hclosed)
    rw [hplaced]
    exact ⟨hspends.count, hspends.supply⟩
  · exact List.mem_append_right _ hp

/-- Side flows go ahead of the channel that the endpoint reads. -/
theorem laid_endpoint {plan : EndpointPlan} {sides : List (ChannelPlan × List Step)}
    (hf : ∀ flow ∈ (Step.endpoint plan sides).flows, FlowAssembly.Laid flow) :
    (Step.endpoint plan sides).Laid := by
  intro b b' sk w w' hd hr hy
  obtain ⟨st, w₃, branches, w₄, w₅, hst, hb, hclose, hattach⟩ := Step.of_yields hy
  have hstage := hst
  simp only [stage, yields_bind, yields_pure, Builder.yields_ensureOpen] at hst
  obtain ⟨handler, w₁, hm, seeds, w₂, hs, _, _, ⟨-, rfl⟩, input, _, hi, _, _,
    hp, rfl, rfl⟩ := hst
  obtain rfl := eq_of_yields_checkPoller hp
  obtain ⟨closed, w₆, hl, hw⟩ := yields_bind.1 hclose
  obtain ⟨-, rfl⟩ := yields_pure.1 hattach
  have hl := yieldsAll_of_mapM hl
  obtain ⟨hseeds, hflows, hkeys⟩ := spent_makeSides (yieldsAll_of_mapM hs)
  obtain ⟨hfits, hinput⟩ := hd.traced.resolveInput hi
  obtain ⟨hfeeds, htip⟩ := hd.traced.feeds hd.narrow hi
  have hhandler := (plan.handler.make_leaves.of_yields hm).spent []
  generalize hzip : seeds.zip (sides.map Prod.snd) = flows at hb hflows hkeys
  rw [← hkeys] at hseeds
  have hplaced : (Step.endpoint plan sides).placed =
      (sides.flatMap fun side => side.1.placed) ++ flows.flatMap fun flow =>
        FlowAssembly.placed flow.2 := by
    rw [Step.placed_eq, ownPlaced, Step.flows, ← hflows, List.flatMap_map]
  rw [hplaced] at hr
  have hresolved := spent_resolved hhandler hseeds hinput sk.keys
    (flows.flatMap fun flow => FlowAssembly.placed flow.2)
  obtain ⟨ts, hrows, hrooms, hran⟩ :=
    rows_runBranches (forall_flows hf hflows)
      (room_flows (hr.of_spent hresolved)) hb
  obtain ⟨hshut, -, hclosed⟩ := closed_all (R := Sketch.Shut)
    (fun hd hn hy => hd.leaveOpen hn hy) hrows.traced hrooms hl
  have hspent := hran.trans hclosed
  have hps : (closed.map fun br => br.registry.marks) =
      (closed.map Branch.registry).map Registry.marks := by
    rw [List.map_map]
    rfl
  rw [hps] at hshut hspent
  have hcomes : (Step.endpoint plan sides).Comes b w (closed.map Branch.registry) :=
    ⟨_, _, _, _, closed, _, hstage, by rw [hzip]; exact hb, hl, rfl⟩
  generalize closed.map Branch.registry = rs at hshut hspent hcomes hw
  have hready := hr.of_spent (hresolved.run hspent)
  rw [← List.flatMap_def] at hready
  obtain ⟨reader, hreader, heq, htraced, hwired⟩ :=
    hd.traced.wire hfits hready.swap hw
  have hbase : (sk.wired (rs.map Registry.marks) reader).base = sk.base ++
        led rs (input.target.channel?.map Channel.key) ⟨w₆.nextComponent⟩ ++
        b.heldBack := by
    rw [Sketch.wired, hd.narrow.lead_eq, heq, led, ← htip, hd.traced.heldBack_eq,
      List.flatMap_def]
    simp
  refine ⟨_, laysOut_of_passes rfl hd hy htraced (Sketch.narrow_of_vacant rfl) ?_
      (Sketch.passes_wired hreader _) ?_
      (takesIn_of_rows hstage (by rw [hzip]; exact hrows)
        (Sketch.takes_of_shut hshut hrows.narrow (hd.narrow.infix_wired _ _)))⟩
  · rw [hplaced]
    exact spent_wired (hresolved.run hspent) hwired
  · rintro _ _ ⟨⟩
    refine ⟨rs, sk.base, _, ⟨w₆.nextComponent⟩, hcomes, hfeeds, ?_, .inl ?_⟩
    · rw [htraced.base_of_vacant rfl, hbase]
    · rw [hbase]
      exact ⟨sk.base, b.heldBack, rfl⟩

/-! ## Routers -/

/-- The branches of a router go behind it: as they are if all are closed, or
led together on the channel that they meet on. -/
theorem traced_routed {branches : List Branch} {ts : List Sketch} (hd : b.Traced sk)
    (hbranches : List.Forall₂ Branch.Traced branches ts) (hn : ∀ t ∈ ts, t.Narrow)
    (hr : w.Room (sk.keys ++ ts.flatMap Sketch.keys))
    (hy : b.Routed branches w b' w') :
    ∃ sk', b'.Traced sk' ∧ sk'.tip = .vacant ∧ sk.Passes sk' ∧
      (∀ t ∈ ts, sk'.Takes t) ∧
      w.Spent (sk.keys ++ ts.flatMap Sketch.keys) w' sk'.keys := by
  obtain ⟨default, r, w₁, spec, b₁, w₂, hreconcile, hattach, hmerge⟩ := hy
  rcases Builder.of_yields_reconcile hreconcile
    with ⟨m, w₁', hm, hc, hmerged⟩ | ⟨hclosed, hsame, hnone, rfl⟩
  · rcases Builder.of_yields_absorbMerged hmerge
      with ⟨hnone, -⟩ | ⟨m', hm', hbridge⟩
    · rw [hmerged] at hnone
      cases hnone
    · obtain rfl : m = m' := by simpa [hmerged] using hm'
      obtain ⟨s₁, ls, e, hcloses, -, hled, -, htraced, hspent⟩ :=
        traced_routed_open hd hbranches hr hm hc hattach hbridge
      refine ⟨_, htraced, rfl, hcloses.passes (List.prefix_append _ _) rfl,
        Sketch.takes_of_led hled hn ?_, hspent⟩
      exact ⟨s₁.base, [.endpoint e (some m.key)], by simp [Sketch.extended]⟩
  · rcases Builder.of_yields_absorbMerged hmerge with ⟨-, rfl, rfl⟩ | ⟨m, hm, -⟩
    · rw [hsame]
      obtain ⟨hshut, -, -⟩ := shut_of_closed hbranches hclosed
      obtain ⟨s₁, hcloses, -, htraced, hspent⟩ :=
        traced_routed_closed (w := { w₁ with nextHandler := w₁.nextHandler + 1 })
          hd hbranches hr hclosed hattach
      exact ⟨_, htraced, rfl, hcloses.passes (List.prefix_append _ _) rfl,
        Sketch.takes_of_shut hshut hn (List.suffix_append _ _).isInfix,
        hspent.congr rfl⟩
    · rw [hnone] at hm
      cases hm

/-- A call whose flows are seeded with channels of their own, and are taken in
by a router. -/
theorem laysOut_of_routed {s : Step} {st : Stage}
    {flows : List (Channel × List Step)} {branches : List Branch} {w₁ w₂ : Workshop}
    (hfree : s.lingers = false ∧ ∀ plan sides, s ≠ .endpoint plan sides)
    (hd : b.Stands sk w) (hr : w.Room (sk.keys ++ s.placed))
    (hy : Yields (s.assemble b) w b' w') (hst : Yields (s.stage b) w st w₁)
    (heq : st.builder = b ∧ st.flows = flows) (hown : s.ownPlaced = [])
    (hf : ∀ flow ∈ s.flows, FlowAssembly.Laid flow)
    (hflows : flows.map Prod.snd = s.flows)
    (hseeds : w.Spent [] w₁ (flows.map fun flow => flow.1.key))
    (hb : YieldsAll b.runBranch w₁ flows branches w₂)
    (hrouted : b.Routed branches w₂ b' w') : ∃ sk', s.LaysOut b w b' w' sk sk' := by
  have hplaced : s.placed = flows.flatMap fun flow =>
      FlowAssembly.placed flow.2 := by
    rw [Step.placed_eq, hown, List.nil_append, ← hflows, List.flatMap_map]
  have hmade := spent_seeds hseeds sk.keys
    (flows.flatMap fun flow => FlowAssembly.placed flow.2)
  have hroom := (hplaced ▸ hr).of_spent hmade
  obtain ⟨ts, hrows, hrooms, hran⟩ :=
    rows_runBranches (forall_flows hf hflows) (room_flows hroom) hb
  have hran := hran.prepend sk.keys
  rw [← List.append_assoc] at hran
  obtain ⟨sk', htraced, hv, hpasses, htakes, hspent⟩ :=
    traced_routed hd.traced hrows.traced hrows.narrow (hroom.of_spent hran) hrouted
  obtain ⟨rfl, rfl⟩ := heq
  refine ⟨sk', laysOut_of_passes hfree.1 hd hy htraced (Sketch.narrow_of_vacant hv)
      ?_ hpasses (setsSides_of_ne hfree.2) (takesIn_of_rows hst hrows htakes)⟩
  rw [hplaced]
  exact hmade.trans (hran.trans hspent)

theorem laid_route {plan : RouterPlan} {mappings : List (String × Destination)}
    (hf : ∀ flow ∈ (Step.route plan mappings).flows, FlowAssembly.Laid flow) :
    (Step.route plan mappings).Laid := by
  intro b b' sk w w' hd hr hy
  obtain ⟨st, w₁, branches, w₂, w₃, hst, hb, hclose, hattach⟩ := Step.of_yields hy
  have hstage := hst
  simp only [stage, yields_bind, yields_pure, yields_ensure,
    Builder.yields_ensureOpen] at hst
  obtain ⟨parts, _, hm, _, _, ⟨-, rfl⟩, _, _, ⟨-, rfl⟩, rfl, rfl⟩ := hst
  obtain ⟨-, rfl⟩ := yields_pure.1 hattach
  obtain ⟨hflows, hseeds⟩ := spent_makeRouter hm
  exact laysOut_of_routed ⟨rfl, fun _ _ heq => by cases heq⟩ hd hr hy hstage
    ⟨rfl, rfl⟩ rfl hf hflows hseeds hb (Builder.of_yields_finishRoute hclose)

theorem laid_routeToRecipients {plan : RecipientsPlan}
    {recipients : List (Option String × Destination)}
    (hf : ∀ flow ∈ (Step.routeToRecipients plan recipients).flows,
      FlowAssembly.Laid flow) :
    (Step.routeToRecipients plan recipients).Laid := by
  intro b b' sk w w' hd hr hy
  obtain ⟨st, w₁, branches, w₂, w₃, hst, hb, hclose, hattach⟩ := Step.of_yields hy
  have hstage := hst
  simp only [stage, yields_bind, yields_pure, yields_ensure,
    Builder.yields_ensureOpen] at hst
  obtain ⟨parts, _, hm, _, _, ⟨-, rfl⟩, _, _, ⟨-, rfl⟩, rfl, rfl⟩ := hst
  obtain ⟨-, rfl⟩ := yields_pure.1 hattach
  obtain ⟨hflows, hseeds⟩ := spent_makeRecipients hm
  exact laysOut_of_routed ⟨rfl, fun _ _ heq => by cases heq⟩ hd hr hy hstage
    ⟨rfl, rfl⟩ rfl hf hflows hseeds hb (Builder.of_yields_finishRecipients hclose)

/-! ## Scatter-gather -/

/-- The recipients of a scatter are closed, since none of them can stand on
the channel that gathers, and go behind the recipient list. -/
theorem laid_scatterRecipients {plan : ScatterGatherPlan} {list : RecipientsPlan}
    {recipients : List (Option String × Destination)}
    (hf : ∀ flow ∈ (Step.scatterGather plan (.recipients list recipients)).flows,
      FlowAssembly.Laid flow) :
    (Step.scatterGather plan (.recipients list recipients)).Laid := by
  intro b b' sk w w' hd hr hy
  obtain ⟨st, w₃, branches, w₄, w₅, hst, hb, hclose, hattach⟩ := Step.of_yields hy
  have hstage := hst
  simp only [stage, Scatter.make, Scatter.seed, yields_bind, yields_pure,
    yields_ensure, Builder.yields_ensureOpen, yields_implicitChannel] at hst
  obtain ⟨release, w₁, hrelease, _, _, ⟨parts, _, hm, rfl, rfl⟩, _, _, ⟨-, rfl⟩,
    _, w₂, ⟨-, rfl⟩, gather, _, ⟨hgather, rfl⟩, _, _,
    ⟨scatter, _, ⟨hscatter, rfl⟩, rfl, rfl⟩, rfl, rfl⟩ := hst
  obtain ⟨-, rfl⟩ := yields_pure.1 hattach
  obtain ⟨closed, w₆, spec, b₁, w₇, b₂, w₈, gatherer, b₃, hc, ha,
    hregister, hg, rfl⟩ :=
    Builder.of_yields_finishScatterGather hclose
  obtain ⟨hflows, hseeds⟩ := spent_makeRecipients hm
  have hgather : gather.key = ⟨w₂.nextComponent⟩ := by rw [hgather]
  have hscatter : scatter.key = ⟨w₂.nextComponent + 1⟩ := by rw [hscatter]
  dsimp only at hb hc hregister
  generalize hseeded : seededFlows (parts.openings.map Prod.snd)
    (recipients.map Prod.snd) = flows at hb hflows hseeds
  have hplaced : (Step.scatterGather plan (.recipients list recipients)).placed =
      flows.flatMap fun flow => FlowAssembly.placed flow.2 := by
    simp [Step.placed_eq, ownPlaced, Step.flows, ← hflows, List.flatMap_map]
  rw [hplaced] at hr
  have hrelease := (plan.gather.release.make_leaves.of_yields hrelease).spent []
  have hmade := spent_scattering hrelease hseeds hgather hscatter sk.keys
    (flows.flatMap fun flow => FlowAssembly.placed flow.2)
  have hroom₂ := hr.of_spent hmade
  obtain ⟨ts, hrows, hrooms, hran⟩ :=
    rows_runBranches (forall_flows hf hflows) (room_flows hroom₂) hb
  -- The channel that gathers was made for the call, and the flows know
  -- nothing of it.
  have hne : ∀ t ∈ ts, t.tip.key? ≠ some gather.key := by
    intro t ht hk
    have hpos : 0 < (ts.flatMap Sketch.keys).count gather.key :=
      List.count_pos_iff.2 (List.mem_flatMap.2 ⟨t, ht, Sketch.mem_keys_of_tip hk⟩)
    have hcount := hran.count gather.key
    have hroom := hroom₂ gather.key
    simp only [List.count_append, List.count_singleton_self] at hcount hroom
    omega
  obtain ⟨hconverged, -, hclosed⟩ := closed_all (R := Sketch.Converged gather.key)
    (fun hd hn hy => hd.converge hn hy) hrows.traced hrooms hc
  have hshut := Sketch.shut_of_led (Sketch.led_of_ne hconverged hne) hne
  have hspent := hran.trans hclosed
  have hroom₄ := hr.of_spent (hmade.run hspent)
  obtain ⟨s₁, l, e, hcloses, -, htraced, hspent'⟩ :=
    traced_scatterRecipients
      (w := { w₆ with nextHandler := w₆.nextHandler + 1 + 1 }) hd.traced
      (by exact hroom₄) ha (Option.some_ne_none _) hregister hg b₁.cursor.tail
      b₁.cursor.pending
  have hspent' := hspent'.congr (w := w₆) rfl
  refine ⟨_, laysOut_of_passes rfl hd hy htraced (Sketch.narrow_of_vacant rfl) ?_
      (hcloses.passes (List.prefix_append _ _) rfl)
      (setsSides_of_ne fun _ _ heq => by cases heq)
      (takesIn_of_rows hstage (by rw [hseeded]; exact hrows)
        (Sketch.takes_of_shut hshut hrows.narrow ?_))⟩
  · rw [hplaced]
    exact (hmade.run hspent).trans hspent'
  · refine ⟨s₁.base ++ [.channel scatter.key, .endpoint l (some scatter.key)],
      [.channel gather.key, .endpoint e (some gather.key)], ?_⟩
    simp [Sketch.extended]

/-! ## All calls -/

/-- A fresh start stands on nothing, and what was called before is gone. -/
theorem laid_fresh : Step.fresh.Laid := by
  intro b b' sk w w' hd hr hy
  obtain ⟨⟨_, _, rfl⟩, hnext, -⟩ := of_yields_fresh hy
  have hfresh : Step.fresh.isFresh ≠ false := Bool.noConfusion
  refine ⟨⟨[], .vacant, []⟩,
    ⟨⟨⟨rfl, rfl, rfl, fun h => absurd rfl h, fun _ _ h => Tip.noConfusion h,
        fun _ => rfl⟩, Sketch.narrow_of_vacant rfl, .moved rfl hy⟩,
      ⟨fun k => ?_, fun k => ?_⟩, fun hf => absurd hf hfresh, ?_⟩⟩
  · rw [hnext]
    exact Nat.le_trans (Nat.le_of_eq (Nat.zero_add _)) (Nat.le_add_left _ _)
  · exact Nat.le_of_eq (congrArg (supply · k) hnext)
  · exact calls_of_takesIn hd hy (setsSides_of_ne fun _ _ heq => by cases heq)
      (takesIn_of_flows rfl _) fun _ hf => absurd hf hfresh

theorem laid {s : Step} (hfree : s.fansOut = false)
    (hf : ∀ flow ∈ s.flows, FlowAssembly.Laid flow) : s.Laid := by
  match s with
  | .channel plan => exact laid_channel plan
  | .endpoint plan sides => exact laid_endpoint hf
  | .wireTap plan d => exact laid_wireTap hf
  | .intercept plan => exact laid_intercept plan
  | .route plan mappings => exact laid_route hf
  | .routeToRecipients plan recipients => exact laid_routeToRecipients hf
  | .publishSubscribe plan subscribers => cases hfree
  | .scatterGather plan (.recipients list recipients) =>
      exact laid_scatterRecipients hf
  | .scatterGather plan (.publish fan subscribers) => cases hfree
  | .withId id => exact laid_withId id
  | .withSession session => exact laid_withSession session
  | .fresh => exact laid_fresh
  | .faulty cause =>
      intro b b' sk w w' _ _ hy
      rw [assemble, Builder.yields_guarded] at hy
      exact absurd hy not_yields_throw

end Step

end FlowAssembly
