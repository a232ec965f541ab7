import FlowAssembly.Proofs.Tracing

/-!
# The outlook of a step comes true

One kind of step after the other: what it does to the sketch of a builder is
what its text tells. Most steps first put a reader behind the channel that the
flow stands on (`Sketch.Closes`); what they add to that are parts that are
whole, so the outlook of the flow is put together from the outlooks of the
parts.

The flows that a step holds are taken as foreseen. The induction that
discharges this is on programs and comes last.
-/

namespace FlowAssembly

open Assembly Workshop

namespace Sketch

namespace Closes

variable {s s₁ : Sketch}

theorem outlook (h : s.Closes s₁) (hs : s.Sound) :
    s₁.outlook = s.outlook.close := by
  cases h with
  | same hv =>
      simp [Sketch.outlook, Outlook.close, hv, Tip.landing, Landing.isSqueezed]
  | read hr hn =>
      rw [hs.outlook_wired (by simp) hr hn]
      simp [Outlook.close]

/-- A step that closes the flow and adds to it has put a reader behind the
channel of the tip. -/
theorem moves (h : s.Closes s₁) {s' : Sketch} (hb : s₁.base <+: s'.base)
    {step : Step} (hlingers : step.lingers = false) (hleads : step.leads = false)
    (hflushed : s'.taps = []) :
    step.Moves s s' where
  kept := h.kept.trans hb
  lingered hl := by simp [hlingers] at hl
  read _ hne := by
    cases h with
    | same hv => exact absurd hv hne
    | read hr hn => exact ⟨[], _, by simp, by simp [hleads, Mark.opens], hr, hb⟩
  flushed _ := hflushed

end Closes

end Sketch

namespace Builder

variable {b b₁ : Builder} {s : Sketch} {w w' : Workshop}

theorem Drawn.closes_attach (hd : b.Drawn s) (hr : w.Room s.keys)
    {spec : EndpointSpec} (hy : Yields (b.attach spec) w b₁ w') :
    ∃ s₁, b₁.Drawn s₁ ∧ s.Closes s₁ ∧ w.Spent s.keys w' s₁.keys := by
  obtain ⟨s₁, htraced, hcloses, hspent⟩ := hd.traced.closes_attach hr hy
  exact ⟨s₁, htraced.drawn (hcloses.sound hd.sound), hcloses, hspent⟩

end Builder

/-- A step does to every builder what is told by its text, if no channel that
it places stands elsewhere. -/
def Step.Foreseen (step : Step) : Prop :=
  ∀ ⦃b b' : Builder⦄ ⦃s : Sketch⦄ ⦃w w' : Workshop⦄, b.Drawn s →
    w.Room (s.keys ++ step.placed) → Yields (step.assemble b) w b' w' →
    ∃ s', b'.Drawn s' ∧ s'.outlook = step.outlook s.outlook ∧
      w.Spent (s.keys ++ step.placed) w' s'.keys ∧ step.Moves s s'

namespace Builder

variable {b b' : Builder} {s : Sketch} {w w' : Workshop}

/-- A channel, a name or a marker behind whatever the flow stands on. -/
theorem Drawn.channel (hd : b.Drawn s) {source : ChannelSource}
    (hr : ∀ c, source = .channel c → w.Room (s.keys ++ [c.key]))
    (hr₀ : w.Room s.keys) (hy : Yields (b.channel source) w b' w') :
    ∃ s₁, s.Closes s₁ ∧ s₁.Sound ∧
      ((∃ c, source = .channel c ∧ b'.Drawn (s₁.standing c.key) ∧
          w.Spent (s.keys ++ [c.key]) w' (s₁.standing c.key).keys) ∨
        ((∀ c, source ≠ .channel c) ∧ b'.Drawn s₁ ∧
          w.Spent s.keys w' s₁.keys)) := by
  obtain ⟨s₁, hcloses, -, hbecomes⟩ := hd.traced.channel hr hr₀ hy
  have hs₁ := hcloses.sound hd.sound
  refine ⟨s₁, hcloses, hs₁, ?_⟩
  rcases hbecomes with ⟨c, rfl, htraced, hspent⟩ | ⟨hne, htraced, hspent⟩
  · exact .inl
      ⟨c, rfl, htraced.drawn (hs₁.standing ((hr c rfl).of_spent hspent).nodup),
        hspent⟩
  · exact .inr ⟨hne, htraced.drawn hs₁, hspent⟩

/-- A tap point is the channel that the flow stands on, or one that is made. -/
theorem Drawn.tapPoint (hd : b.Drawn s) {attempted : String} {c : Channel}
    (hr : w.Room s.keys) (hy : Yields (b.tapPoint attempted) w (b', c) w') :
    ∃ s', b'.Drawn s' ∧
      s'.outlook = { s.outlook with landing := s.outlook.landing.tapped } ∧
      s'.tip ≠ .vacant ∧
      w.Spent s.keys w' s'.keys ∧ s'.base = s.base ∧ s'.taps = s.taps ∧
      (s.tip ≠ .vacant → s'.tip = s.tip) := by
  obtain ⟨s', htraced, hspent, hne, rfl | ⟨hv, rfl⟩⟩ := hd.traced.tapPoint hr hy
  · refine ⟨s', htraced.drawn hd.sound, ?_, hne, hspent, rfl, rfl, fun _ => rfl⟩
    unfold Sketch.outlook
    cases ht : s'.tip with
    | vacant => exact absurd ht hne
    | bare k | shared k l => rfl
  · refine ⟨_, htraced.drawn (hd.sound.standing (hr.of_spent hspent).nodup),
      ?_, hne, hspent, rfl, (hd.sound.vacant hv).symm, fun hne => absurd hv hne⟩
    rw [hd.sound.outlook_standing hv]
    simp [Sketch.outlook, hv, Tip.landing, Landing.tapped]

end Builder

namespace Step

theorem foreseen_channel (plan : SourcePlan) : (Step.channel plan).Foreseen := by
  intro b b' s w w' hd hr hy
  obtain ⟨source, w₁, hm, hc⟩ := of_yields_channel hy
  have hplaced : (Step.channel plan).placed = plan.placed := by
    simp [Step.placed_eq, ownPlaced, flows]
  rw [hplaced] at hr ⊢
  rcases SourcePlan.of_yields_make hm
    with ⟨c, rfl, hlanding, hmade⟩ | ⟨hne, hlanding, hmade⟩
  · have hmade := hmade.prepend s.keys
    have hroom := hr.of_spent hmade
    obtain ⟨s₁, hcloses, hs₁, ⟨c', hc', hdrawn, hspent⟩ | ⟨hc', -⟩⟩ :=
      hd.channel (fun c' h => by cases h; exact hroom) hroom.of_append hc
    · cases hc'
      refine ⟨_, hdrawn, ?_, hmade.trans hspent,
        hcloses.moves (by exact List.prefix_rfl) rfl rfl rfl⟩
      rw [hs₁.outlook_standing hcloses.vacant, hcloses.outlook hd.sound,
        outlook, hlanding]
    · exact absurd rfl (hc' c)
  · have hmade := hmade.prepend s.keys
    rw [List.append_nil] at hmade
    obtain ⟨s₁, hcloses, -, ⟨c, hc', -⟩ | ⟨-, hdrawn, hspent⟩⟩ :=
      hd.channel (fun c' h => absurd h (hne c')) (hr.of_spent hmade) hc
    · exact absurd hc' (hne c)
    · refine ⟨_, hdrawn, ?_, hmade.trans hspent,
        hcloses.moves List.prefix_rfl rfl rfl (hdrawn.sound.vacant hcloses.vacant)⟩
      rw [hcloses.outlook hd.sound, outlook, hlanding]
      rfl

theorem foreseen_intercept (plan : InterceptorPlan) :
    (Step.intercept plan).Foreseen := by
  intro b b' s w w' hd hr hy
  obtain ⟨interceptor, w₁, hm, hi⟩ := of_yields_intercept hy
  obtain ⟨c, w₂, ht, rfl⟩ := Builder.of_yields_intercept hi
  have hplaced : (Step.intercept plan).placed = [] := rfl
  rw [hplaced, List.append_nil] at hr ⊢
  have hmade := (plan.make_leaves.of_yields hm).spent s.keys
  obtain ⟨s', hdrawn, houtlook, -, hspent, hbase, htaps, htip⟩ :=
    hd.tapPoint (hr.of_spent hmade) ht
  refine ⟨s', hdrawn, houtlook, hmade.trans ⟨hspent.count, hspent.supply⟩,
    .of_lingers rfl hbase fun hne => ?_⟩
  refine ⟨htip hne, ?_⟩
  rw [htaps]
  exact (Bool.or_false _).symm

/-- A flow that a tap leads into is closed and held back. -/
theorem foreseen_wireTap {plan : TapPlan} {d : Destination}
    (hf : ∀ flow ∈ (Step.wireTap plan d).flows, FlowAssembly.Foreseen flow ∧
      FlowAssembly.Contained flow) :
    (Step.wireTap plan d).Foreseen := by
  intro b b' s w w' hd hr hy
  obtain ⟨opening, w₁, b₁, c, w₂, branches, w₃, tap, ho, ht, hb, hw⟩ :=
    of_yields_wireTap hy
  obtain ⟨closed, w₄, hl, rfl, rfl⟩ := Builder.of_yields_finishTap hw
  obtain ⟨hflows, hopen⟩ := d.of_yields_openUp ho
  generalize seededFlows [opening] [d] = taps at hb hflows hopen
  have hplaced : (Step.wireTap plan d).placed = taps.flatMap fun flow =>
      FlowAssembly.placed flow.2 := by
    simp [Step.placed_eq, ownPlaced, flows, ← hflows, List.flatMap_map]
  rw [hplaced] at hr ⊢
  have hroom₁ := hr.of_spent
    (spent_seeds hopen s.keys (taps.flatMap fun flow => FlowAssembly.placed flow.2))
  obtain ⟨s₁, hdrawn, houtlook, hne, hspent, hbase, htaps, htip⟩ :=
    hd.tapPoint hroom₁.of_append.of_append ht
  have hroom₂ := (hroom₁.of_spent ((hspent.append _).append _))
  obtain ⟨hclosed, hspent'⟩ :=
    closed_leaveOpen (forall_flows hf hflows) (room_flows hroom₂) hb hl
  generalize hps : closed.map (fun br => br.registry.marks) = ps at hclosed hspent'
  have hspends := spent_tapped hopen hspent hspent'
  have hs₁ := hdrawn.sound.held hne hclosed.block (hr.of_spent hspends).nodup
  refine ⟨s₁.held ps, ⟨hdrawn.marks, ?_, hdrawn.current, hdrawn.pending, hs₁⟩,
    ?_, ⟨hspends.count, hspends.supply⟩, .of_lingers rfl hbase fun hne =>
      ⟨htip hne, ?_⟩⟩
  · rw [← hps]
    simp [Sketch.held, hdrawn.taps]
  · rw [Sketch.outlook_held, houtlook, hclosed.crowded, hclosed.misplaced, hflows,
      ← Destination.outlook_eq]
    rfl
  · have hlength : ps.length = d.flows.length := by
      rw [← hclosed.length_eq, ← hflows, List.length_map]
    rw [Mark.opens_flatten hs₁.taps, Sketch.held, htaps,
      Mark.opens_flatten hd.sound.taps]
    cases d with
    | target _ =>
        rw [List.eq_nil_of_length_eq_zero hlength]
        simp [holdsBack, Destination.isFlow]
    | flow _ =>
        obtain ⟨p, rfl⟩ := List.length_eq_one_iff.1 hlength
        simp [holdsBack, Destination.isFlow]

/-- Side flows are closed and go ahead of the channel that the endpoint
reads. -/
theorem foreseen_endpoint {plan : EndpointPlan}
    {sides : List (ChannelPlan × List Step)}
    (hf : ∀ flow ∈ (Step.endpoint plan sides).flows, FlowAssembly.Foreseen flow ∧
      FlowAssembly.Contained flow) :
    (Step.endpoint plan sides).Foreseen := by
  intro b b' s w w' hd hr hy
  obtain ⟨handler, w₁, seeds, w₂, spec, input, w₃, branches, w₄, closed, w₅,
    hm, hs, hi, hb, hl, hw⟩ :=
    of_yields_endpoint hy
  obtain ⟨hseeds, hflows, hkeys⟩ := spent_makeSides hs
  obtain ⟨hfits, hinput⟩ := hd.traced.resolveInput hi
  have hhandler := (plan.handler.make_leaves.of_yields hm).spent []
  generalize seeds.zip (sides.map Prod.snd) = flows at hb hflows hkeys
  rw [← hkeys] at hseeds
  have hplaced : (Step.endpoint plan sides).placed =
      (sides.flatMap fun side => side.1.placed) ++ flows.flatMap fun flow =>
        FlowAssembly.placed flow.2 := by
    rw [Step.placed_eq, ownPlaced, Step.flows, ← hflows, List.flatMap_map]
  rw [hplaced] at hr ⊢
  have hresolved := spent_resolved hhandler hseeds hinput s.keys
    (flows.flatMap fun flow => FlowAssembly.placed flow.2)
  obtain ⟨hclosed, hspent⟩ :=
    closed_leaveOpen (forall_flows hf hflows)
      (room_flows (hr.of_spent hresolved)) hb hl
  have hps : (closed.map fun br => br.registry.marks) =
      (closed.map Branch.registry).map Registry.marks := by
    rw [List.map_map]
    rfl
  rw [hps] at hclosed hspent
  generalize closed.map Branch.registry = sideRegistries at hclosed hspent hw
  have hblock := hclosed.block
  have hready := hr.of_spent (hresolved.run hspent)
  rw [← List.flatMap_def] at hready
  obtain ⟨reader, hreader, hdrawn, hwired⟩ := hd.wire hfits
    (fun r hr => (hblock r.marks (List.mem_map_of_mem hr)).whole) hready.swap hw
  generalize hps : sideRegistries.map Registry.marks = ps
    at hclosed hspent hblock hdrawn
  have hwhole : ∀ p ∈ ps, Mark.Whole p := fun p hp => (hblock p hp).whole
  refine ⟨_, hdrawn, ?_, spent_wired (hresolved.run hspent) hwired,
    Sketch.base_prefix_wired s ps reader, fun hl => absurd hl Bool.false_ne_true,
    fun _ _ => ⟨ps, reader, hblock, ?_, hreader, List.prefix_rfl⟩, fun _ => rfl⟩
  · rw [hd.sound.outlook_wired hwhole hreader hdrawn.sound.distinct,
      hclosed.crowded, hclosed.misplaced, hflows, ← sidesOutlook_eq]
    rfl
  · have hlength : ps.length = sides.length := by
      rw [← hclosed.length_eq, ← List.length_map Prod.snd, hflows, List.length_map]
    rw [Mark.opens_flatten hblock, leads, Bool.eq_iff_iff]
    simp only [Bool.not_eq_true', List.isEmpty_eq_false_iff,
      ← List.length_pos_iff, hlength]

/-- Subscribers that were run, closed and deprived of the channel that they
all start at. -/
theorem subscribed_closed {c : Channel} {subscribers : List (List Step)}
    {ps : List (List Mark)}
    (h : Closed (subscribers.map fun steps => (c, steps)) ps) :
    (∀ q ∈ Sketch.remaining c.key ps, Mark.WholeBehind c.key q ∧
      c.key ∈ Mark.reads q) ∧
    (Sketch.remaining c.key ps).length = subscribers.length ∧
    Mark.opens (Sketch.remaining c.key ps).flatten = squeezes subscribers ∧
    (Sketch.remaining c.key ps).any Mark.crowded =
      (subscribersOutlook subscribers).any (fun o => o.close.crowded) ∧
    (Sketch.remaining c.key ps).any (Mark.misplacedFrom [c.key]) =
      (subscribersOutlook subscribers).any (fun o => o.misplaced) ∧
    ∀ k, (Mark.keys (Sketch.remaining c.key ps).flatten).count k +
        (subscribers.map fun _ => c.key).count k =
        (Mark.keys ps.flatten).count k := by
  obtain ⟨hbehind, hopens, hcrowded, hmisplaced, hcount⟩ :=
    Sketch.subscribed_all (k := c.key) (List.forall₂_map_left_iff.1 h.fromSeed)
      h.nodup
  have hflows : (subscribers.map fun steps => (c, steps)).map Prod.snd =
      subscribers := by
    rw [List.map_map]
    exact List.map_id _
  refine ⟨hbehind, ?_, hopens, ?_, ?_, hcount⟩
  · rw [Sketch.remaining, List.length_map, ← h.length_eq, List.length_map]
  · rw [hcrowded, h.crowded, hflows, ← subscribersOutlook_eq]
  · rw [hmisplaced, h.misplaced, hflows, ← subscribersOutlook_eq]

theorem foreseen_subscribers {c : Channel} {subscribers : List (List Step)}
    (hf : ∀ flow ∈ subscribers, FlowAssembly.Foreseen flow ∧
      FlowAssembly.Contained flow) :
    ∀ flow ∈ subscribers.map (fun steps => (c, steps)),
      FlowAssembly.Foreseen flow.2 ∧ FlowAssembly.Contained flow.2 := by
  intro flow hm
  obtain ⟨steps, hs, rfl⟩ := List.mem_map.1 hm
  exact hf steps hs

/-- Subscribers share the channel that they start at, but each of them is run
on its own. -/
theorem room_subscribers {c : Channel} {subscribers : List (List Step)}
    {w : Workshop} {others : List ComponentKey}
    (hr : w.Room (others ++ [c.key] ++ subscribers.flatMap FlowAssembly.placed)) :
    ∀ flow ∈ subscribers.map (fun steps => (c, steps)),
      w.Room (flow.1.key :: FlowAssembly.placed flow.2) := by
  intro flow hm k
  obtain ⟨steps, hs, rfl⟩ := List.mem_map.1 hm
  obtain ⟨before, after, rfl⟩ := List.append_of_mem hs
  have hk := hr k
  simp only [List.flatMap_append, List.flatMap_cons, List.count_append,
    List.count_cons, List.count_nil] at hk ⊢
  omega

/-- What subscribers start from: their channel once for each of them, and what
they place. -/
theorem budget_subscribers (c : Channel) (subscribers : List (List Step)) :
    (subscribers.map fun steps => (c, steps)).map (fun flow => flow.1.key) ++
      (subscribers.map fun steps => (c, steps)).flatMap (fun flow =>
        FlowAssembly.placed flow.2) = (subscribers.map fun _ => c.key) ++
      subscribers.flatMap FlowAssembly.placed := by
  rw [List.map_map, List.flatMap_map]
  rfl

/-- The channel of a fan-out is not current yet, since it stands nowhere. -/
theorem yields_channel_of_openFanOut {b b' : Builder} {s : Sketch} {c : Channel}
    {w w' : Workshop} (hd : b.Drawn s) (hr : w.Room (s.keys ++ [c.key]))
    (hy : Yields (b.openFanOut c) w b' w') :
    Yields (b.channel (.channel c)) w b' w' := by
  rcases Builder.of_yields_openFanOut hy with ⟨hcurrent, -⟩ | ⟨-, hy⟩
  · rw [hd.current] at hcurrent
    have hpos := List.count_pos_iff.2 (Sketch.mem_keys_of_tip hcurrent)
    have hk := hr c.key
    simp only [List.count_append, List.count_singleton_self] at hk
    omega
  · exact hy

/-- The subscribers of a fan-out are closed and go behind its channel. -/
theorem foreseen_publishSubscribe {plan : FanOutPlan}
    {subscribers : List (List Step)}
    (hf : ∀ flow ∈ (Step.publishSubscribe plan subscribers).flows,
      FlowAssembly.Foreseen flow ∧ FlowAssembly.Contained flow) :
    (Step.publishSubscribe plan subscribers).Foreseen := by
  intro b b' s w w' hd hr hy
  obtain ⟨given, w₁, c, w₂, b₁, w₃, branches, w₄, hm, hc, ho, hb, hw⟩ :=
    of_yields_publishSubscribe hy
  obtain ⟨closed, hl, rfl⟩ := Builder.of_yields_finishFanOut hw
  have hmade := (spent_fanOut hm).trans (spent_fanOutChannel hc)
  have hplaced : (Step.publishSubscribe plan subscribers).placed = plan.placed ++
        subscribers.flatMap FlowAssembly.placed := by
    rw [Step.placed_eq, ownPlaced, Step.flows]
  rw [hplaced] at hr ⊢
  have hroom₂ :
      w₂.Room (s.keys ++ [c.key] ++ subscribers.flatMap FlowAssembly.placed) := by
    intro k
    have hk := hr k
    have hk' := hmade.count k
    simp only [List.count_append] at hk hk' ⊢
    omega
  have hnew := yields_channel_of_openFanOut hd hroom₂.of_append ho
  obtain ⟨s₁, hcloses, hs₁, ⟨c', hc', hdrawn, hspent⟩ | ⟨hne, -⟩⟩ :=
    hd.channel (fun c' h => by cases h; exact hroom₂.of_append)
      hroom₂.of_append.of_append hnew
  swap
  · exact absurd rfl (hne c)
  cases hc'
  have hroom₃ := hroom₂.of_spent (hspent.append _)
  have hroom₃ :
      w₃.Room (s₁.keys ++ [c.key] ++ subscribers.flatMap FlowAssembly.placed) := by
    intro k
    have hk := hroom₃ k
    rw [List.count_append,
      Sketch.keys_standing hcloses.vacant (hs₁.vacant hcloses.vacant)] at hk
    simpa only [List.count_append] using hk
  have hf : ∀ flow ∈ subscribers, FlowAssembly.Foreseen flow ∧
      FlowAssembly.Contained flow :=
    hf
  obtain ⟨hclosed, hspent'⟩ :=
    closed_leaveOpen (foreseen_subscribers hf) (room_subscribers hroom₃) hb hl
  rw [budget_subscribers] at hspent'
  obtain ⟨hbehind, hlength, hopens, hcrowded, hmisplaced, hcount⟩ :=
    subscribed_closed hclosed
  generalize hps : closed.map (fun br => br.registry.marks) = ps
    at hspent' hbehind hlength hopens hcrowded hmisplaced hcount
  have hspends :
      w.Spent (s.keys ++ (plan.placed ++ subscribers.flatMap FlowAssembly.placed))
        w' (s₁.fanOut c.key (Sketch.remaining c.key ps)).keys := by
    refine ⟨fun k => ?_, fun k => ?_⟩
    · have hk := hmade.count k
      have hk₁ := hspent.count k
      have hk₂ := hspent'.count k
      have hk₃ := hcount k
      rw [Sketch.keys_standing hcloses.vacant (hs₁.vacant hcloses.vacant)] at hk₁
      rw [hs₁.keys_fanOut hcloses.vacant]
      simp only [List.count_append] at hk hk₁ hk₂ hk₃ ⊢
      omega
    · exact Nat.le_trans (hspent'.supply k)
        (Nat.le_trans (hspent.supply k) (hmade.supply k))
  have hn := (hr.of_spent hspends).nodup
  refine ⟨s₁.fanOut c.key _,
    ⟨?_, hdrawn.taps, ?_, fun _ => hdrawn.pending (by simp [Sketch.standing]),
      hs₁.fanOut hbehind hn⟩, ?_, hspends,
    hcloses.moves (by exact List.prefix_rfl) rfl rfl rfl⟩
  · have hstanding : b₁.registry.marks = s₁.base ++ [.channel c.key] := hdrawn.marks
    have htaps : (s₁.fanOut c.key (Sketch.remaining c.key ps)).taps.flatten = [] :=
      rfl
    rw [Sketch.keys, Sketch.marks_fanOut, htaps, List.append_nil, ← hps] at hn
    rw [Sketch.marks_fanOut, ← hps]
    exact Builder.marks_fanned hstanding (by simpa using hn)
  · refine hdrawn.current.trans ?_
    unfold Sketch.fanOut
    split <;> rfl
  · rw [hs₁.outlook_fanOut hcloses.vacant hbehind hn, hcloses.outlook hd.sound,
      hopens, hcrowded, hmisplaced, outlook, fanOutLanding]
    have hempty : (Sketch.remaining c.key ps).isEmpty = subscribers.isEmpty := by
      rw [Bool.eq_iff_iff, List.isEmpty_iff_length_eq_zero,
        List.isEmpty_iff_length_eq_zero, hlength]
    rw [hempty]
    rfl

/-- A router whose branches are all closed: they go behind it as they are. -/
theorem drawn_routed_closed {branches : List Branch} {ts : List Sketch}
    {b b₁ : Builder} {s : Sketch} {spec : EndpointSpec} {w w' : Workshop}
    (hd : b.Drawn s) (hbranches : List.Forall₂ Branch.Drawn branches ts)
    (hs : ∀ t ∈ ts, t.Sound) (hr : w.Room (s.keys ++ ts.flatMap Sketch.keys))
    (hclosed : ∀ br ∈ branches, br.ending = .closed)
    (hy : Yields (b.attach spec) w b₁ w') :
    ∃ s₁ s', s.Closes s₁ ∧ s₁.base <+: s'.base ∧ (b₁.absorb branches).Drawn s' ∧
      s'.outlook =
        s.outlook.close.absorb (Outlook.converged (ts.map Sketch.outlook)) ∧
      w.Spent (s.keys ++ ts.flatMap Sketch.keys) w' s'.keys := by
  obtain ⟨hshut, hvacant, hkeys⟩ :=
    shut_of_closed (hbranches.imp fun _ _ hd => hd.traced) hclosed
  obtain ⟨s₁, hcloses, -, htraced, hspends⟩ :=
    traced_routed_closed hd.traced (hbranches.imp fun _ _ hd => hd.traced)
      hr hclosed hy
  generalize branches.map (fun br => br.registry.marks) = ps
    at hshut hkeys htraced hspends
  have hs₁ := hcloses.sound hd.sound
  have hn := (hr.of_spent hspends).nodup
  have hflat : (Mark.keys ps.flatten).Nodup := by
    rw [hkeys]
    exact (List.nodup_append.1 hr.nodup).2.1
  have hwhole := Sketch.whole_shut_all hs hshut
  obtain ⟨hcrowded, hmisplaced⟩ :=
    Sketch.outlook_shut hshut hs (Mark.nodup_parts hflat)
  have hunset : ∀ o ∈ ts.map Sketch.outlook, o.landing = .unset := by
    intro o ho
    obtain ⟨t, ht, rfl⟩ := List.mem_map.1 ho
    simp [Sketch.outlook, hvacant t ht, Tip.landing]
  refine ⟨s₁, s₁.extended ps, hcloses, List.prefix_append _ _,
    htraced.drawn (hs₁.extended hwhole hn), ?_, hspends⟩
  rw [hs₁.outlook_extended hcloses.vacant hwhole hn, hcloses.outlook hd.sound,
    hcrowded, hmisplaced, Outlook.converged_of_unset hunset]
  rfl

/-- A router whose branches go on in the flow: they are led together on a
merge channel, which stands behind them with its bridge. -/
theorem drawn_routed_open {branches branches' : List Branch} {ts : List Sketch}
    {b b₁ b' parent : Builder} {s : Sketch} {spec : EndpointSpec} {merge : Channel}
    {w w₁ w₂ w₃ w' : Workshop} (hd : b.Drawn s)
    (hbranches : List.Forall₂ Branch.Drawn branches ts)
    (hs : ∀ t ∈ ts, t.Sound ∧ t.taps = [])
    (hr : w.Room (s.keys ++ ts.flatMap Sketch.keys))
    (hm : Yields (Builder.mergeChannel branches) w merge w₁)
    (hc : YieldsAll (fun br => br.converge parent merge) w₁ branches branches' w₂)
    (hy : Yields (b.attach spec) { w₂ with nextHandler := w₂.nextHandler + 1 }
      b₁ w₃)
    (hbridge : Yields (b₁.mergedOn branches' merge).bridge w₃ b' w') :
    ∃ s₁ s', s.Closes s₁ ∧ s₁.base <+: s'.base ∧ b'.Drawn s' ∧
      s'.outlook =
        s.outlook.close.absorb (Outlook.converged (ts.map Sketch.outlook)) ∧
      w.Spent (s.keys ++ ts.flatMap Sketch.keys) w' s'.keys := by
  have hroomBranches : w.Room (ts.flatMap Sketch.keys) := fun k => by
    have hk := hr k
    rw [List.count_append] at hk
    omega
  obtain ⟨s₁, ls, e, hcloses, -, hled, hfirst, htraced, hspends⟩ :=
    traced_routed_open hd.traced (hbranches.imp fun _ _ hd => hd.traced) hr hm
      hc hy hbridge
  have hs₁ := hcloses.sound hd.sound
  have hn := (hr.of_spent hspends).nodup
  have hpart :
      (Mark.keys
        (ls.flatten ++ [.channel merge.key,
            .endpoint e (some merge.key)])).Nodup := by
    rw [← List.flatten_singleton (l := ls.flatten ++ _)]
    exact (List.nodup_append.1 (Sketch.nodup_of_extended hn)).2.1
  have hparts := hpart
  rw [Mark.keys_append, List.nodup_append] at hparts
  have hbehind := Sketch.wholeBehind_led_all hs hled
  obtain ⟨hcrowded, hmisplaced⟩ := Sketch.outlook_converged hled hs
    (Sketch.apart_of_nodup hroomBranches.nodup) hfirst
    (fun hk => hparts.2.2 _ hk _ (by simp) rfl) hparts.1
  have hwhole :
      ∀ p ∈ [ls.flatten ++ [.channel merge.key, .endpoint e (some merge.key)]],
        Mark.Whole p := by
    simpa using Mark.whole_merge hbehind
  refine ⟨s₁, _, hcloses, List.prefix_append _ _,
    htraced.drawn (hs₁.extended hwhole hn), ?_, hspends⟩
  rw [hs₁.outlook_extended hcloses.vacant hwhole hn, hcloses.outlook hd.sound,
    List.any_cons, List.any_cons, Mark.crowded_merge hbehind,
    Mark.misplaced_merge hbehind hpart, hcrowded, hmisplaced]
  simp [Outlook.absorb, Outlook.close]

/-- The branches of a router are led together, and go behind it. -/
theorem foreseen_routed {flows : List (Channel × List Step)}
    {branches : List Branch} {b b' : Builder} {s : Sketch} {w w₁ w' : Workshop}
    (hd : b.Drawn s)
    (hf : ∀ flow ∈ flows, FlowAssembly.Foreseen flow.2 ∧
      FlowAssembly.Contained flow.2)
    (hr : w.Room
      (s.keys ++ flows.map (fun flow => flow.1.key) ++ flows.flatMap fun flow =>
        FlowAssembly.placed flow.2))
    (hb : YieldsAll b.runBranch w flows branches w₁)
    (hy : b.Routed branches w₁ b' w') :
    ∃ s₁ s', s.Closes s₁ ∧ s₁.base <+: s'.base ∧ b'.Drawn s' ∧
      s'.outlook =
        s.outlook.close.absorb
        (Outlook.converged ((flows.map Prod.snd).map (stepsOutlook .seeded))) ∧
      w.Spent (s.keys ++ flows.map (fun flow => flow.1.key) ++
        flows.flatMap fun flow => FlowAssembly.placed flow.2) w' s'.keys := by
  obtain ⟨default, r, w₂, spec, b₁, w₃, hreconcile, hattach, hmerge⟩ := hy
  obtain ⟨ts, hgrown, hrooms, hspent⟩ := grown_runBranches hf (room_flows hr) hb
  have hrun : w.Spent (s.keys ++ flows.map (fun flow => flow.1.key) ++
      flows.flatMap fun flow => FlowAssembly.placed flow.2) w₁
      (s.keys ++ (ts.map Sketch.flushed).flatMap Sketch.keys) := by
    rw [List.append_assoc]
    refine (hspent.prepend s.keys).trans ⟨fun k => ?_, fun k => Nat.le_refl _⟩
    exact Nat.le_of_eq
      (by rw [List.count_append, List.count_append, Grown.count_flushed])
  have houtlook : (ts.map Sketch.flushed).map Sketch.outlook =
      (flows.map Prod.snd).map (stepsOutlook .seeded) := by
    rw [hgrown.outlook_flushed, List.map_map]
    rfl
  have hroom := hr.of_spent hrun
  rw [← houtlook]
  rcases Builder.of_yields_reconcile hreconcile
    with ⟨m, w₁', hm, hc, hmerged⟩ | ⟨hclosed, hbranches, hnone, rfl⟩
  · rcases Builder.of_yields_absorbMerged hmerge
      with ⟨hnone, -⟩ | ⟨m', hm', hbridge⟩
    · rw [hmerged] at hnone
      cases hnone
    · obtain rfl : m = m' := by simpa [hmerged] using hm'
      obtain ⟨s₁, s', hcloses, hbase, hdrawn, houtlook, hspent'⟩ :=
        drawn_routed_open hd hgrown.drawn hgrown.sound_flushed hroom hm hc
          hattach hbridge
      exact ⟨s₁, s', hcloses, hbase, hdrawn, houtlook, hrun.trans hspent'⟩
  · rcases Builder.of_yields_absorbMerged hmerge with ⟨-, rfl, rfl⟩ | ⟨m, hm, -⟩
    · rw [hbranches]
      obtain ⟨s₁, s', hcloses, hbase, hdrawn, houtlook, hspent'⟩ :=
        drawn_routed_closed (w := { w₂ with nextHandler := w₂.nextHandler + 1 })
          hd hgrown.drawn (fun t ht => (hgrown.sound_flushed t ht).1) hroom
          hclosed hattach
      exact ⟨s₁, s', hcloses, hbase, hdrawn, houtlook,
        hrun.trans (hspent'.congr rfl)⟩
    · rw [hnone] at hm
      cases hm

theorem foreseen_route {plan : RouterPlan} {mappings : List (String × Destination)}
    (hf : ∀ flow ∈ (Step.route plan mappings).flows, FlowAssembly.Foreseen flow ∧
      FlowAssembly.Contained flow) :
    (Step.route plan mappings).Foreseen := by
  intro b b' s w w' hd hr hy
  obtain ⟨parts, w₁, branches, w₂, hm, hb, hrouted⟩ := of_yields_route hy
  obtain ⟨hflows, hseeds⟩ := spent_makeRouter hm
  generalize seededFlows (parts.openings.map Prod.snd)
    (mappings.map Prod.snd) = flows at hb hflows hseeds
  have hplaced : (Step.route plan mappings).placed = flows.flatMap fun flow =>
      FlowAssembly.placed flow.2 := by
    simp [Step.placed_eq, ownPlaced, Step.flows, ← hflows, List.flatMap_map]
  rw [hplaced] at hr ⊢
  have hmade :=
    spent_seeds hseeds s.keys (flows.flatMap fun flow => FlowAssembly.placed flow.2)
  obtain ⟨s₁, s', hcloses, hbase, hdrawn, houtlook, hspent⟩ :=
    foreseen_routed hd (forall_flows hf hflows) (hr.of_spent hmade) hb hrouted
  have hflushed := hdrawn.sound.taps_of_unset (congrArg Outlook.landing houtlook)
  refine ⟨s', hdrawn, ?_, hmade.trans hspent, hcloses.moves hbase rfl rfl hflushed⟩
  rw [houtlook, hflows, ← mappingsOutlook_eq]
  rfl

theorem foreseen_routeToRecipients {plan : RecipientsPlan}
    {recipients : List (Option String × Destination)}
    (hf : ∀ flow ∈ (Step.routeToRecipients plan recipients).flows,
      FlowAssembly.Foreseen flow ∧ FlowAssembly.Contained flow) :
    (Step.routeToRecipients plan recipients).Foreseen := by
  intro b b' s w w' hd hr hy
  obtain ⟨parts, w₁, branches, w₂, hm, hb, hrouted⟩ :=
    of_yields_routeToRecipients hy
  obtain ⟨hflows, hseeds⟩ := spent_makeRecipients hm
  generalize seededFlows (parts.openings.map Prod.snd)
    (recipients.map Prod.snd) = flows at hb hflows hseeds
  have hplaced : (Step.routeToRecipients plan recipients).placed =
      flows.flatMap fun flow => FlowAssembly.placed flow.2 := by
    simp [Step.placed_eq, ownPlaced, Step.flows, ← hflows, List.flatMap_map]
  rw [hplaced] at hr ⊢
  have hmade :=
    spent_seeds hseeds s.keys (flows.flatMap fun flow => FlowAssembly.placed flow.2)
  obtain ⟨s₁, s', hcloses, hbase, hdrawn, houtlook, hspent⟩ :=
    foreseen_routed hd (forall_flows hf hflows) (hr.of_spent hmade) hb hrouted
  have hflushed := hdrawn.sound.taps_of_unset (congrArg Outlook.landing houtlook)
  refine ⟨s', hdrawn, ?_, hmade.trans hspent, hcloses.moves hbase rfl rfl hflushed⟩
  rw [houtlook, hflows, ← recipientsOutlook_eq]
  rfl

/-! ## Scatter-gather -/

/-- The channel that gathers, with its reader, brings in no fault. -/
theorem sound_gathered {s : Sketch} {parts : List (List Mark)} {k e : ComponentKey}
    (hs : s.Sound) (hv : s.tip = .vacant) (hp : ∀ p ∈ parts, Mark.Whole p)
    (hn : (s.extended (parts ++ [[.channel k, .endpoint e (some k)]])).keys.Nodup) :
    (s.extended (parts ++ [[.channel k, .endpoint e (some k)]])).Sound ∧
    (s.extended (parts ++ [[.channel k, .endpoint e (some k)]])).outlook =
      ⟨.unset, s.outlook.crowded || parts.any Mark.crowded,
        s.outlook.misplaced || parts.any Mark.misplaced⟩ := by
  have hwhole : ∀ p ∈ parts ++ [[.channel k, .endpoint e (some k)]],
      Mark.Whole p := by
    intro p hm
    rcases List.mem_append.1 hm with hm | hm
    · exact hp p hm
    · rw [List.mem_singleton.1 hm]
      exact (Sketch.Reader.made k e).whole
  refine ⟨hs.extended hwhole hn, ?_⟩
  rw [hs.outlook_extended hv hwhole hn, List.any_append, List.any_append]
  simp [Mark.crowded, Mark.opens, Mark.isChannel, Mark.misplaced,
    Mark.misplacedFrom, Mark.reads?]

/-- What a scatter-gather registered stands behind its endpoint, and behind
that the channel that gathers, with its reader. -/
theorem drawn_gathered {b b' : Builder} {s : Sketch} {parts : List (List Mark)}
    {gather : Channel} {spec : EndpointSpec} {w w' : Workshop} (hs : s.Sound)
    (hv : s.tip = .vacant) (hp : ∀ p ∈ parts, Mark.Whole p)
    (hmarks : b.registry.marks = s.base ++ parts.flatten)
    (hheld : b.cursor.deferred = [])
    (hr : w.Room (s.keys ++ Mark.keys parts.flatten ++ [gather.key]))
    (hy : Yields
      (Builder.attach
        (Builder.continueFrom
          { b with registry := b.registry.add (.channel gather) } (.channel gather))
        spec) w b' w')
    (tail : Option Tail) (pending : Option PendingOutput) :
    ∃ s', s.base <+: s'.base ∧
      Builder.Drawn { b' with
        cursor := { b'.cursor with tail, pending, channel := none } } s' ∧
      s'.outlook = ⟨.unset, s.outlook.crowded || parts.any Mark.crowded,
        s.outlook.misplaced || parts.any Mark.misplaced⟩ ∧
      w.Spent (s.keys ++ Mark.keys parts.flatten ++ [gather.key]) w' s'.keys := by
  obtain ⟨e, htraced, hspends⟩ :=
    traced_gathered hv (hs.vacant hv) hmarks hheld hr hy tail pending
  obtain ⟨hsound, houtlook⟩ := sound_gathered hs hv hp (hr.of_spent hspends).nodup
  exact ⟨_, List.prefix_append _ _, htraced.drawn hsound, houtlook, hspends⟩

/-- A scatter-gather over a recipient list: the list reads the channel that
scatters, and its branches follow. -/
theorem drawn_scatterRecipients {b b₁ b₂ b₃ : Builder} {s : Sketch}
    {scattering : Scattering} {gather : Channel} {branches : List Branch}
    {spec gatherer : EndpointSpec} {w w₁ w₂ w' : Workshop} (hd : b.Drawn s)
    (hr : w.Room
      (s.keys ++ [gather.key] ++ [scattering.channel.key] ++
        Mark.keys (branches.map fun br => br.registry.marks).flatten))
    (hp : ∀ p ∈ branches.map (fun br => br.registry.marks), Mark.Whole p)
    (hattach : Yields (b.attach spec) w b₁ w₁) (hlist : scattering.list ≠ none)
    (hregister : Yields
      (Builder.registerScatter
        { b₁ with cursor := { b₁.cursor with tail := none, pending := none } }
        scattering branches) w₁ b₂ w₂)
    (hgatherer : Yields
      (Builder.attach
        (Builder.continueFrom
          { b₂ with registry := b₂.registry.add (.channel gather) }
          (.channel gather)) gatherer) w₂ b₃ w')
    (tail : Option Tail) (pending : Option PendingOutput) :
    ∃ s₁ s', s.Closes s₁ ∧ s₁.base <+: s'.base ∧
      Builder.Drawn { b₃ with
        cursor := { b₃.cursor with tail, pending, channel := none } } s' ∧
      s'.outlook =
        ⟨.unset,
          s.outlook.close.crowded ||
            (branches.map fun br => br.registry.marks).any Mark.crowded,
          s.outlook.misplaced ||
            (branches.map fun br => br.registry.marks).any Mark.misplaced⟩ ∧
      w.Spent (s.keys ++ [gather.key] ++ [scattering.channel.key] ++
          Mark.keys (branches.map fun br => br.registry.marks).flatten)
        w' s'.keys := by
  obtain ⟨s₁, l, e, hcloses, -, htraced, hspends⟩ :=
    traced_scatterRecipients hd.traced hr hattach hlist hregister
      hgatherer tail pending
  have hwhole :
      ∀ p ∈
          [.channel scattering.channel.key, .endpoint l
              (some scattering.channel.key)] ::
          branches.map (fun br => br.registry.marks), Mark.Whole p := by
    rw [List.forall_mem_cons]
    exact ⟨(Sketch.Reader.made _ l).whole, hp⟩
  obtain ⟨hsound, houtlook⟩ :=
    sound_gathered (hcloses.sound hd.sound) hcloses.vacant hwhole
      (hr.of_spent hspends).nodup
  refine ⟨s₁, _, hcloses, List.prefix_append _ _, htraced.drawn hsound, ?_, hspends⟩
  rw [houtlook, hcloses.outlook hd.sound, List.any_cons, List.any_cons]
  simp [Mark.crowded, Mark.opens, Mark.isChannel, Mark.misplaced,
    Mark.misplacedFrom, Mark.reads?, Outlook.close]

/-- The recipients of a scatter are led to the channel that gathers, and go
behind the recipient list. -/
theorem foreseen_scatterRecipients {plan : ScatterGatherPlan}
    {list : RecipientsPlan} {recipients : List (Option String × Destination)}
    (hf : ∀ flow ∈ (Step.scatterGather plan (.recipients list recipients)).flows,
      FlowAssembly.Foreseen flow ∧ FlowAssembly.Contained flow) :
    (Step.scatterGather plan (.recipients list recipients)).Foreseen := by
  intro b b' s w w' hd hr hy
  obtain ⟨release, w₁, made, w₂, gather, scattering, w₃, hrelease, hm, hgather,
    hscatter, hlist, hb, hfinish⟩ :=
    of_yields_scatterRecipients hy
  obtain ⟨branches, w₄, spec, b₁, w₅, b₂, w₆, gatherer, b₃, hc, hattach, hregister,
    hgatherer, rfl⟩ :=
    Builder.of_yields_finishScatterGather hfinish
  obtain ⟨hflows, hseeds⟩ := spent_makeRecipients hm
  generalize seededFlows (made.openings.map Prod.snd)
    (recipients.map Prod.snd) = flows at hb hflows hseeds
  have hplaced : (Step.scatterGather plan (.recipients list recipients)).placed =
      flows.flatMap fun flow => FlowAssembly.placed flow.2 := by
    simp [Step.placed_eq, ownPlaced, Step.flows, ← hflows, List.flatMap_map]
  rw [hplaced] at hr ⊢
  have hrelease := (plan.gather.release.make_leaves.of_yields hrelease).spent []
  have hmade := spent_scattering hrelease hseeds hgather hscatter s.keys
    (flows.flatMap fun flow => FlowAssembly.placed flow.2)
  have hroom₂ := hr.of_spent hmade
  have hfree : (flows.map (fun flow => flow.1.key) ++ flows.flatMap fun flow =>
      FlowAssembly.placed flow.2).count gather.key +
        supply (w₂.nextComponent + 1 + 1) gather.key = 0 := by
    have hk := hroom₂ gather.key
    simp only [List.count_append, List.count_singleton_self] at hk ⊢
    omega
  obtain ⟨hclosed, hspent⟩ :=
    closed_converge (forall_flows hf hflows) (room_flows hroom₂) hfree hb hc
  have hroom₄ := hr.of_spent (hmade.run hspent)
  obtain ⟨s₁, s', hcloses, hkept, hdrawn, houtlook, hspent'⟩ :=
    drawn_scatterRecipients (w := { w₄ with nextHandler := w₄.nextHandler + 1 + 1 })
      hd hroom₄ (fun p hp => (hclosed.block p hp).whole) hattach hlist hregister
      hgatherer b₁.cursor.tail b₁.cursor.pending
  have hspent' := hspent'.congr (w := w₄) rfl
  have hflushed := hdrawn.sound.taps_of_unset (congrArg Outlook.landing houtlook)
  refine ⟨s', hdrawn, ?_, (hmade.run hspent).trans hspent',
    hcloses.moves hkept rfl rfl hflushed⟩
  · rw [houtlook, hclosed.crowded, hclosed.misplaced, hflows,
      ← recipientsOutlook_eq]
    rfl

/-- A scatter-gather over a fan-out: the subscribers stand right behind the
channel that scatters. -/
theorem drawn_scatterPublish {b b₁ b₂ b₃ : Builder} {s : Sketch}
    {scattering : Scattering} {gather : Channel} {branches : List Branch}
    {qs : List (List Mark)} {spec gatherer : EndpointSpec} {w w₁ w₂ w' : Workshop}
    (hd : b.Drawn s)
    (hr : w.Room
      (s.keys ++ [gather.key] ++ [scattering.channel.key] ++ Mark.keys qs.flatten))
    (hqs : Sketch.remaining scattering.channel.key
      (branches.map fun br => br.registry.marks) = qs)
    (hq : ∀ q ∈ qs, Mark.WholeBehind scattering.channel.key q ∧
      scattering.channel.key ∈ Mark.reads q)
    (hne : qs ≠ []) (hattach : Yields (b.attach spec) w b₁ w₁)
    (hlist : scattering.list = none)
    (hregister : Yields
      (Builder.registerScatter
        { b₁ with cursor := { b₁.cursor with tail := none, pending := none } }
        scattering branches) w₁ b₂ w₂)
    (hgatherer : Yields
      (Builder.attach
        (Builder.continueFrom
          { b₂ with registry := b₂.registry.add (.channel gather) }
          (.channel gather)) gatherer) w₂ b₃ w')
    (tail : Option Tail) (pending : Option PendingOutput) :
    ∃ s₁ s', s.Closes s₁ ∧ s₁.base <+: s'.base ∧
      Builder.Drawn { b₃ with
        cursor := { b₃.cursor with tail, pending, channel := none } } s' ∧
      s'.outlook =
        ⟨.unset,
          s.outlook.close.crowded || (Mark.opens qs.flatten || qs.any Mark.crowded),
          s.outlook.misplaced ||
            qs.any (Mark.misplacedFrom [scattering.channel.key])⟩ ∧
      w.Spent (s.keys ++ [gather.key] ++ [scattering.channel.key] ++
        Mark.keys qs.flatten) w' s'.keys := by
  obtain ⟨s₁, hdrawn, hcloses, hspent₁⟩ :=
    hd.closes_attach hr.of_append.of_append.of_append hattach
  have hbase := hdrawn.traced.base_of_vacant hcloses.vacant
  have hheld := hdrawn.traced.held_of_vacant hcloses.vacant
  have hkeys :=
    Sketch.keys_of_vacant hcloses.vacant (hdrawn.sound.vacant hcloses.vacant)
  have hroom₁ := hr.of_spent
    (((hspent₁.append [gather.key]).append [scattering.channel.key]).append _)
  obtain ⟨b₄, rfl, ⟨-, rfl, rfl⟩ | ⟨listSpec, hsome, -⟩⟩ :=
    Builder.of_yields_registerScatter hregister
  swap
  · exact absurd hlist hsome
  have hdistinct :
      (Mark.keys s₁.base ++
        ([scattering.channel.key] ++ Mark.keys qs.flatten)).Nodup := by
    rw [List.nodup_iff_count]
    intro k
    have hk := hroom₁ k
    simp only [List.count_append, hkeys] at hk ⊢
    omega
  have hadd : (b₁.registry.add (.channel scattering.channel)).marks =
      s₁.base ++ [.channel scattering.channel.key] := by
    rw [Registry.marks_add_of_not_mem, hbase]
    · rfl
    · rw [hbase]
      exact fun hk => (List.nodup_append.1 hdistinct).2.2 _ hk _
        (by simp [Component.key]) rfl
  generalize hb₄ : ({ b₁ with
    registry := b₁.registry.add (.channel scattering.channel)
    cursor := { b₁.cursor with tail := none, pending := none } } :
      Builder) = b₄ at hgatherer
  have hreg : b₄.registry = b₁.registry.add (.channel scattering.channel) := by
    rw [← hb₄]
  have hheld₄ : b₄.cursor.deferred = [] := by rw [← hb₄, hheld]
  have habsorb : (b₄.absorb branches).registry.marks =
      s₁.base ++ [.channel scattering.channel.key :: qs.flatten].flatten := by
    rw [← hreg] at hadd
    rw [← hqs] at hdistinct ⊢
    rw [Builder.marks_fanned hadd hdistinct, List.flatten_singleton]
  have hbehind : ∀ q ∈ qs, Mark.WholeBehind scattering.channel.key q :=
    fun q hm => (hq q hm).1
  have hreads := Mark.flatten_ne_nil_of_reads (fun q hm => (hq q hm).2) hne
  have hparts : ∀ k,
      (Mark.keys [Mark.channel scattering.channel.key :: qs.flatten].flatten).count
        k = [scattering.channel.key].count k + (Mark.keys qs.flatten).count k :=
    fun k => by
      simp [List.count_cons]
      omega
  have hroom₂ :
      w₂.Room (s₁.keys ++
        Mark.keys [Mark.channel scattering.channel.key :: qs.flatten].flatten ++
        [gather.key]) := by
    intro k
    have hk := hroom₁ k
    simp only [List.count_append, hparts] at hk ⊢
    omega
  obtain ⟨s', hkept, hdrawn', houtlook, hspent'⟩ := drawn_gathered hdrawn.sound
    hcloses.vacant (by simpa using Mark.whole_fan hbehind hreads) habsorb hheld₄
    hroom₂ hgatherer tail pending
  refine ⟨s₁, s', hcloses, hkept, hdrawn', ?_, fun k => ?_, fun k => ?_⟩
  · have hfan :
        (Mark.keys (.channel scattering.channel.key :: qs.flatten)).Nodup := by
      simpa using (List.nodup_append.1 hdistinct).2.1
    rw [houtlook, hcloses.outlook hd.sound, List.any_cons, List.any_cons,
      Mark.misplaced_fan hbehind hfan, Mark.crowded,
      Mark.crowded_flatten fun q hm => (hbehind q hm).quiet]
    simp [Mark.isChannel, Outlook.close]
  · have hk := hspent₁.count k
    have hk' := hspent'.count k
    simp only [List.count_append, hparts] at hk hk' ⊢
    omega
  · exact Nat.le_trans (hspent'.supply k) (hspent₁.supply k)

/-- The subscribers of a scatter are led to the channel that gathers, and go
behind the channel that scatters. -/
theorem foreseen_scatterPublish {plan : ScatterGatherPlan} {fan : FanOutPlan}
    {subscribers : List (List Step)}
    (hf : ∀ flow ∈ (Step.scatterGather plan (.publish fan subscribers)).flows,
      FlowAssembly.Foreseen flow ∧ FlowAssembly.Contained flow) :
    (Step.scatterGather plan (.publish fan subscribers)).Foreseen := by
  intro b b' s w w' hd hr hy
  obtain ⟨release, w₁, given, w₂, gather, scattering, w₃, w₄, hrelease, hm, hne,
    hgather, hlist, hchannel, hb, hfinish⟩ := of_yields_scatterPublish hy
  obtain ⟨branches, w₅, spec, b₁, w₆, b₂, w₇, gatherer, b₃, hc, hattach, hregister,
    hgatherer, rfl⟩ :=
    Builder.of_yields_finishScatterGather hfinish
  have hplaced : (Step.scatterGather plan (.publish fan subscribers)).placed =
      fan.placed ++ subscribers.flatMap FlowAssembly.placed := by
    rw [Step.placed_eq, ownPlaced, Step.flows]
  rw [hplaced] at hr ⊢
  have hrelease := (plan.gather.release.make_leaves.of_yields hrelease).spent []
  have hgiven := spent_fanOut hm
  have hnext := Spent.next w₂
  rw [← hgather] at hnext
  have hmade := spent_fanOutChannel hchannel
  have hstaged :
      w.Spent (s.keys ++ (fan.placed ++ subscribers.flatMap FlowAssembly.placed)) w₃
        (s.keys ++ [gather.key] ++ [scattering.channel.key] ++
          subscribers.flatMap FlowAssembly.placed) := by
    refine ⟨fun k => ?_,
      fun k => Nat.le_trans (hmade.supply k)
        (Nat.le_trans (hnext.supply k)
          (Nat.le_trans (hgiven.supply k) (hrelease.supply k)))⟩
    have hk₁ := hrelease.count k
    have hk₂ := hgiven.count k
    have hk₃ := hnext.count k
    have hk₄ := hmade.count k
    simp only [List.count_append, List.count_nil] at hk₁ hk₂ hk₃ hk₄ ⊢
    omega
  have hroom₃ := hr.of_spent hstaged
  have hfree : ((subscribers.map fun steps => (scattering.channel, steps)).map
      (fun flow => flow.1.key) ++ (subscribers.map fun steps =>
        (scattering.channel, steps)).flatMap
      (fun flow => FlowAssembly.placed flow.2)).count gather.key +
        supply w₃.nextComponent gather.key = 0 := by
    have hk := hroom₃ gather.key
    have hshared :
        (subscribers.map fun _ => scattering.channel.key).count gather.key = 0 := by
      refine List.count_eq_zero.2 fun hmem => ?_
      obtain ⟨_, -, heq⟩ := List.mem_map.1 hmem
      simp only [heq, List.count_append, List.count_singleton_self] at hk
      omega
    rw [budget_subscribers]
    simp only [List.count_append, List.count_singleton_self] at hk ⊢
    omega
  have hf : ∀ flow ∈ subscribers, FlowAssembly.Foreseen flow ∧
      FlowAssembly.Contained flow :=
    hf
  obtain ⟨hclosed, hspent⟩ :=
    closed_converge (foreseen_subscribers hf) (room_subscribers hroom₃) hfree hb hc
  rw [budget_subscribers] at hspent
  obtain ⟨hbehind, hlength, hopens, hcrowded, hmisplaced, hcount⟩ :=
    subscribed_closed hclosed
  generalize hqs : Sketch.remaining scattering.channel.key
    (branches.map fun br => br.registry.marks) = qs
    at hbehind hlength hopens hcrowded hmisplaced hcount
  have hled :
      w₃.Spent (s.keys ++ [gather.key] ++ [scattering.channel.key] ++
        subscribers.flatMap FlowAssembly.placed) w₅
        (s.keys ++ [gather.key] ++ [scattering.channel.key] ++
          Mark.keys qs.flatten) := by
    refine ⟨fun k => ?_, hspent.supply⟩
    have hk₁ := hspent.count k
    have hk₂ := hcount k
    simp only [List.count_append] at hk₁ hk₂ ⊢
    omega
  have hroom₅ := hroom₃.of_spent hled
  have hnonempty : qs ≠ [] := by
    rw [← List.length_pos_iff, hlength]
    exact List.length_pos_iff.2 hne
  obtain ⟨s₁, s', hcloses, hkept, hdrawn, houtlook, hspent'⟩ :=
    drawn_scatterPublish (w := { w₅ with nextHandler := w₅.nextHandler + 1 + 1 })
      hd hroom₅ hqs hbehind hnonempty hattach hlist hregister hgatherer
      b₁.cursor.tail b₁.cursor.pending
  have hspent' := hspent'.congr (w := w₅) rfl
  have hflushed := hdrawn.sound.taps_of_unset (congrArg Outlook.landing houtlook)
  refine ⟨s', hdrawn, ?_, (hstaged.trans hled).trans hspent',
    hcloses.moves hkept rfl rfl hflushed⟩
  rw [houtlook, hopens, hcrowded, hmisplaced]
  simp [outlook, Scatter.outlook, Outlook.absorb, Outlook.close, Bool.or_assoc,
    Bool.or_comm (squeezes subscribers)]

/-! ## All programs -/

/-- A step that leaves the registry and the cursor alone. -/
theorem foreseen_of_same {step : Step} (hlingers : step.lingers = true)
    (hheld : step.holdsBack = false) (houtlook : ∀ o, step.outlook o = o)
    (hsame : ∀ {b b' : Builder} {w w' : Workshop},
      Yields (step.assemble b) w b' w' → b'.registry = b.registry ∧
      b'.cursor = b.cursor ∧ w.nextComponent = w'.nextComponent) :
    step.Foreseen := by
  intro b b' s w w' hd hr hy
  obtain ⟨hregistry, hcursor, hnext⟩ := hsame hy
  refine ⟨s, (hd.traced.of_same hregistry hcursor).drawn hd.sound,
    (houtlook _).symm, ⟨fun k => ?_, fun k => ?_⟩,
    .of_lingers hlingers rfl fun _ => ⟨rfl, ?_⟩⟩
  · rw [List.count_append, hnext]
    omega
  · exact Nat.le_of_eq (by rw [hnext])
  · rw [hheld, Bool.or_false]

theorem foreseen_withId (id : String) : (Step.withId id).Foreseen := by
  refine foreseen_of_same rfl rfl (fun _ => rfl) fun {b b' w w'} hy => ?_
  rcases of_yields_withId hy with ⟨-, rfl, rfl⟩ | ⟨-, rfl, rfl⟩
  · exact ⟨rfl, rfl, rfl⟩
  · exact ⟨rfl, rfl, rfl⟩

theorem foreseen_withSession (session : SessionId) :
    (Step.withSession session).Foreseen := by
  refine foreseen_of_same rfl rfl (fun _ => rfl) fun {b b' w w'} hy => ?_
  rcases of_yields_withSession hy with ⟨-, rfl, rfl⟩ | ⟨-, rfl, claims, -, rfl⟩
  · exact ⟨rfl, rfl, rfl⟩
  · exact ⟨rfl, rfl, rfl⟩

theorem foreseen {s : Step} (hfresh : s.isFresh = false)
    (hf : ∀ flow ∈ s.flows, FlowAssembly.Foreseen flow ∧
      FlowAssembly.Contained flow) : s.Foreseen := by
  match s with
  | .channel plan => exact foreseen_channel plan
  | .endpoint plan sides => exact foreseen_endpoint hf
  | .wireTap plan d => exact foreseen_wireTap hf
  | .intercept plan => exact foreseen_intercept plan
  | .route plan mappings => exact foreseen_route hf
  | .routeToRecipients plan recipients => exact foreseen_routeToRecipients hf
  | .publishSubscribe plan subscribers => exact foreseen_publishSubscribe hf
  | .scatterGather plan (.recipients list recipients) =>
      exact foreseen_scatterRecipients hf
  | .scatterGather plan (.publish fan subscribers) =>
      exact foreseen_scatterPublish hf
  | .withId id => exact foreseen_withId id
  | .withSession session => exact foreseen_withSession session
  | .fresh => cases hfresh
  | .faulty cause =>
      intro b b' s w w' _ _ hy
      rw [assemble, Builder.yields_guarded] at hy
      exact absurd hy not_yields_throw

end Step

/-- Every program does what is told by its text, at any depth of nesting. -/
theorem foreseen_of_contained {steps : List Step} (hc : Contained steps) :
    Foreseen steps := by
  revert hc
  refine Step.flow_induction (P := fun s => s.isFresh = false → s.Contained →
    s.Foreseen) (Q := fun steps => Contained steps → Foreseen steps) ?step
    ?nil ?cons steps
  case step =>
    intro s ih hfresh hc
    exact Step.foreseen hfresh fun flow hm => ⟨ih flow hm (hc.flow hm), hc.flow hm⟩
  case nil =>
    intro _ b b' s w w' hd hr hy
    obtain ⟨rfl, rfl⟩ := yields_pure.1 hy
    refine ⟨s, hd, rfl, ?_, .nil s⟩
    rw [placed, stepsWithin, List.flatMap_nil, List.append_nil]
    exact .refl _ _
  case cons =>
    intro step rest hstep hrest hc b b' s w w' hd hr hy
    obtain ⟨hfresh, hin, hc⟩ := contained_cons.1 hc
    obtain ⟨b₁, w₁, hfirst, hy⟩ := of_yields_assembleSteps_cons hy
    rw [placed_cons, ← List.append_assoc] at hr ⊢
    obtain ⟨s₁, hd₁, houtlook₁, hspent₁, hmoves⟩ :=
      hstep hfresh hin hd hr.of_append hfirst
    have hspent₁ := hspent₁.append (placed rest)
    obtain ⟨s', hd', houtlook, hspent, hgrows⟩ :=
      hrest hc hd₁ (hr.of_spent hspent₁) hy
    refine ⟨s', hd', ?_, hspent₁.trans hspent, .cons hmoves hgrows⟩
    rw [houtlook, houtlook₁, stepsOutlook]

end FlowAssembly
