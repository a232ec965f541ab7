import FlowAssembly.Proofs.Nesting
import FlowAssembly.Proofs.Placement
import FlowAssembly.Proofs.Turns

/-!
# Steps as turns

Every step that answers is a series of turns at the desk of its builder, with
the desks of its branches on top of it while they are assembled. The channels
that a caller brings into the flow with a step can be read off the step.

The induction is on programs. Each operation of a builder is one turn or a
few, and a step that branches runs its branches one after the other, so that
there is one case for each kind of step.
-/

namespace FlowAssembly

open Assembly

/-! ## What a program brings -/

/-- The channel that a plan names, if it names one and makes none. -/
def ChannelPlan.brought : ChannelPlan → List Channel
  | .existing c => [c]
  | .new .. | .faulty _ => []

/-- The channel that a flow goes on through, if the caller brings it. -/
def SourcePlan.brought : SourcePlan → List Channel
  | .channel plan => plan.brought
  | .named _ | .fixedSubscriber _ => []

/-- The channel of a fan-out, if the caller brings it. -/
def FanOutPlan.brought (plan : FanOutPlan) : List Channel :=
  plan.channel.toList.flatMap ChannelPlan.brought

namespace Step

/-- The channels of the caller's that a step itself brings in. -/
def ownBrought : Step → List Channel
  | .channel source => source.brought
  | .endpoint _ sides => sides.flatMap fun side => side.1.brought
  | .publishSubscribe plan _ => plan.brought
  | .scatterGather _ (.publish plan _) => plan.brought
  | _ => []

/-- The channels of the caller's that a step brings in, with all the flows
that it holds. -/
def brought (s : Step) : List Channel :=
  s.ownBrought ++ s.inner.flatMap ownBrought

end Step

/-- The channels of the caller's that a program brings in. -/
def broughtBy (steps : List Step) : List Channel :=
  (stepsWithin steps).flatMap Step.ownBrought

theorem broughtBy_cons (s : Step) (rest : List Step) :
    broughtBy (s :: rest) = s.brought ++ broughtBy rest := by
  simp [broughtBy, Step.brought, stepsWithin]

theorem Step.brought_eq (s : Step) :
    s.brought = s.ownBrought ++ s.flows.flatMap broughtBy := by
  rw [brought, inner_eq, List.flatMap_assoc]
  rfl

/-! ## What a call attaches -/

/-- The bridge that takes up what the flow stands on, if it stands on
something. -/
def Builder.bridged (b : Builder) (n : Nat) : List Link :=
  if b.cursor.channel.isSome then [.latest n .next] else []

/-- A router that was attached, with the bridge behind the channel that its
branches converged on, if they did. -/
def Builder.routed (b' : Builder) (n : Nat) : List Link :=
  if b'.cursor.pending.isSome then [.latest (n - 1) .next, .latest n .merging]
  else [.latest n .next]

/-- The endpoint of a scatter-gather that was attached, its recipient list if
it has one, and its gatherer. -/
def scatterLinks (listed : Bool) (n : Nat) : List Link :=
  if listed then [.latest (n - 2) .next, .latest (n - 1) .aside, .latest n .aside]
  else [.latest (n - 1) .next, .latest n .aside]

/-- The endpoints that a call attaches to the flow of its own builder, told by
the builder and the next number before its flows run, `b₁` and `n₁`, and
behind it, `b'` and `n'`. -/
def Step.linksFrom (s : Step) (b b₁ : Builder) (n₁ : Nat) (b' : Builder)
    (n' : Nat) : List Link :=
  match s with
  | .channel _ => b.bridged n'
  | .endpoint .. => [.latest n' .next]
  | .route .. | .routeToRecipients .. => b'.routed n'
  | .publishSubscribe .. =>
      if b₁.currentKey? = b.currentKey? then [] else b.bridged n₁
  | .scatterGather _ (.recipients ..) => scatterLinks true n'
  | .scatterGather _ (.publish ..) => scatterLinks false n'
  | .wireTap .. | .intercept _ | .withId _ | .withSession _ | .fresh | .faulty _ =>
      []

/-- The endpoints that a call attaches to the flow of its own builder, in
order. -/
def Step.links (s : Step) (b : Builder) (w : Workshop) : List Link :=
  match (s.prepare b).outcome w, (s.assemble b).outcome w with
  | (.ok (b₁, _), w₁), (.ok b', w') =>
      s.linksFrom b b₁ w₁.nextComponent b' w'.nextComponent
  | _, _ => []

theorem Step.links_of_yields {s : Step} {b b₁ b' : Builder}
    {flows : List (Channel × List Step)} {w w₁ w' : Workshop}
    (hp : Yields (s.prepare b) w (b₁, flows) w₁)
    (h : Yields (s.assemble b) w b' w') :
    s.links b w = s.linksFrom b b₁ w₁.nextComponent b' w'.nextComponent := by
  unfold Yields at hp h
  rw [links, hp, h]

/-! ## Channels at hand -/

section

variable {B : Channel → Prop} {d : Desk} {t : List Desk} {w w' : Workshop}

theorem Leads.idle {n n' : Nat} (h : n ≤ n') : Leads B (d :: t) n (d :: t) n' :=
  .work (.idle rfl rfl h)

theorem Leads.made {c : Channel} {n : Nat} (h : c.key = ⟨n⟩) :
    Leads B (d :: t) n ({ d with channels := d.channels ++ [c] } :: t) (n + 1) :=
  .work (.take (.inl ⟨h, rfl⟩))

theorem Channel.subscriber_of_isMade {c : Channel} (h : c.isMade = false) :
    c.subscriber = none := by
  simp only [isMade, Bool.or_eq_false_iff, Option.isSome_eq_false_iff,
    Option.isNone_iff_eq_none] at h
  exact h.2

theorem Callers.subscriber {c : Channel} (h : Callers B c) :
    c.subscriber = none ∨ B c :=
  h.symm.imp_left Channel.subscriber_of_isMade

theorem ChannelPlan.leads_make {plan : ChannelPlan} {c : Channel}
    (hb : ∀ c ∈ plan.brought, B c) (h : Yields plan.make w c w') :
    Leads B (d :: t) w.nextComponent ({ d with channels := d.channels ++ [c] } :: t)
      w'.nextComponent ∧
    Callers B c := by
  match plan with
  | .existing channel =>
      obtain ⟨rfl, rfl⟩ := yields_pure.1 (by simpa only [make] using h)
      have hc : B c := hb c (by simp [ChannelPlan.brought])
      exact ⟨.work (.take (.inr ⟨.inl hc, rfl⟩)), .inl hc⟩
  | .new kind id datatypes plans =>
      simp only [make, yields_bind, yields_explicitChannel] at h
      obtain ⟨interceptors, w₁, hi, c', w₂, ⟨rfl, rfl⟩, h⟩ := h
      have hsup := (InterceptorPlan.makeAll_leaves plans).of_yields hi
      have hmade : ∀ c : Channel, c.key = ⟨w₁.nextComponent⟩ →
          Leads B (d :: t) w.nextComponent
            ({ d with channels := d.channels ++ [c] } :: t)
            (w₁.nextComponent + 1) :=
        fun c hc => (Leads.idle hsup.components).trans (.made hc)
      split at h
      · simp only [yields_bind, yields_pure] at h
        obtain ⟨_, _, ha, rfl, rfl⟩ := h
        obtain rfl := yields_forM_attach.1 ha
        exact ⟨hmade _ rfl, .inr rfl⟩
      · obtain ⟨rfl, rfl⟩ := yields_pure.1 h
        exact ⟨hmade _ rfl, .inr rfl⟩
  | .faulty cause =>
      rw [make] at h
      exact absurd h not_yields_throw

theorem leads_makeSides {sides : List (ChannelPlan × List Step)}
    {seeds : List Channel} (hb : ∀ side ∈ sides, ∀ c ∈ side.1.brought, B c)
    (h : YieldsAll (fun side : ChannelPlan × List Step => side.1.make) w sides
      seeds w') :
    Leads B (d :: t) w.nextComponent ({ d with channels := d.channels ++ seeds } ::
      t) w'.nextComponent ∧
    (∀ c ∈ seeds, Callers B c) ∧ seeds.length = sides.length := by
  induction h generalizing d with
  | nil w => exact ⟨by simpa using Leads.refl _ _, by simp, rfl⟩
  | @cons w w₁ w' side seed sides seeds hc _ ih =>
      obtain ⟨hone, hseed⟩ := ChannelPlan.leads_make (hb _ List.mem_cons_self) hc
      obtain ⟨hrest, hseeds, hlen⟩ := ih
        (d := { d with channels := d.channels ++ [seed] }) fun side hm =>
          hb side (List.mem_cons_of_mem _ hm)
      refine ⟨hone.trans (by simpa using hrest), ?_, by simp [hlen]⟩
      exact fun c hm => (List.mem_cons.1 hm).elim (fun h => h ▸ hseed) (hseeds c)

theorem FanOutPlan.leads_make {plan : FanOutPlan} {given : Option Channel}
    (hb : ∀ c ∈ plan.brought, B c)
    (h : Yields (plan.channel.mapM ChannelPlan.make) w given w') :
    Leads B (d :: t) w.nextComponent
      ({ d with channels := d.channels ++ given.toList } :: t) w'.nextComponent ∧
    ∀ c ∈ given, Callers B c := by
  obtain ⟨channel, _, _⟩ := plan
  cases channel with
  | none =>
      obtain ⟨rfl, rfl⟩ := yields_pure.1 h
      exact ⟨by simpa using Leads.refl _ _, by simp⟩
  | some channel =>
      obtain ⟨c, hm, rfl⟩ := yields_map.1 h
      obtain ⟨hleads, hc⟩ :=
        ChannelPlan.leads_make (by simpa [FanOutPlan.brought] using hb) hm
      exact ⟨hleads, by simpa using hc⟩

/-- The channel of a fan-out lies ready: the one that was given, or a new
one. -/
theorem leads_fanOutChannel {plan : FanOutPlan} {given : Option Channel}
    {c : Channel} {rest : List Channel} (hg : ∀ c ∈ given, Callers B c)
    (h : Yields (Builder.fanOutChannel plan given) w c w')
    (hd : d.channels.Perm (given.toList ++ rest)) :
    ∃ channels, channels.Perm (c :: rest) ∧
      Leads B (d :: t) w.nextComponent ({ d with channels } :: t) w'.nextComponent ∧
      Callers B c := by
  match given with
  | some given =>
      obtain ⟨rfl, rfl⟩ := yields_pure.1 h
      exact ⟨d.channels, hd, .refl _ _, hg c rfl⟩
  | none =>
      obtain ⟨rfl, rfl⟩ := yields_explicitChannel.1 h
      exact ⟨_, (hd.append_right [_]).trans List.perm_append_comm,
        .made rfl, .inr rfl⟩

/-! ## The channels that branches start at -/

theorem Destination.leads_openUp {destination : Destination} {opening : Opening}
    (h : Yields destination.openUp w opening w') :
    Leads B (d :: t) w.nextComponent
      ({ d with
          channels := d.channels ++ (seededFlows [opening]
            [destination]).map Prod.fst } :: t) w'.nextComponent ∧
    ∀ flow ∈ seededFlows [opening] [destination], flow.1.subscriber = none := by
  match destination with
  | .target plan =>
      obtain ⟨target, hm, rfl⟩ := yields_map.1 h
      exact ⟨by simpa [seededFlows] using Leads.idle (plan.make_leaves.of_yields
          hm).components, by simp [seededFlows]⟩
  | .flow steps =>
      obtain ⟨c, hc, rfl⟩ := yields_map.1 h
      obtain ⟨rfl, rfl⟩ := yields_implicitChannel.1 hc
      exact ⟨.made rfl, by simp [seededFlows]⟩

theorem leads_openUp {destinations : List Destination} {openings : List Opening}
    (h : YieldsAll Destination.openUp w destinations openings w') :
    Leads B (d :: t) w.nextComponent
      ({ d with
          channels := d.channels ++ (seededFlows openings
            destinations).map Prod.fst } :: t) w'.nextComponent ∧
    ∀ flow ∈ seededFlows openings destinations, flow.1.subscriber = none := by
  induction h generalizing d with
  | nil w =>
      exact ⟨by simpa [seededFlows] using Leads.refl _ _, by simp [seededFlows]⟩
  | @cons w w₁ w' destination opening destinations openings ho _ ih =>
      obtain ⟨hone, hseed⟩ := Destination.leads_openUp ho
      obtain ⟨hrest, hseeds⟩ := ih (d := { d with
        channels :=
          d.channels ++ (seededFlows [opening] [destination]).map Prod.fst })
      rw [seededFlows_cons]
      refine ⟨hone.trans (by simpa using hrest), fun flow hm => ?_⟩
      exact (List.mem_append.1 hm).elim (hseed flow) (hseeds flow)

theorem leads_makeRouter {plan : RouterPlan}
    {mappings : List (String × Destination)} {parts : RouterParts}
    (h : Yields (plan.make mappings) w parts w') :
    Leads B (d :: t) w.nextComponent
        ({ d with
            channels := d.channels ++
              (seededFlows (parts.openings.map Prod.snd)
                (mappings.map Prod.snd)).map Prod.fst } :: t)
        w'.nextComponent ∧
      ∀ flow ∈ seededFlows (parts.openings.map Prod.snd) (mappings.map Prod.snd),
        flow.1.subscriber = none := by
  obtain ⟨w₁, w₂, hbefore, ho, hafter⟩ := RouterPlan.of_yields_make h
  obtain ⟨hleads, hseeds⟩ := leads_openUp ho
  exact ⟨((Leads.idle hbefore.components).trans hleads).trans
      (.idle hafter.components), hseeds⟩

theorem leads_makeRecipients {plan : RecipientsPlan}
    {recipients : List (Option String × Destination)} {parts : RecipientParts}
    (h : Yields (plan.make recipients) w parts w') :
    Leads B (d :: t) w.nextComponent
        ({ d with
            channels := d.channels ++
              (seededFlows (parts.openings.map Prod.snd)
                (recipients.map Prod.snd)).map Prod.fst } :: t)
        w'.nextComponent ∧
      ∀ flow ∈ seededFlows (parts.openings.map Prod.snd) (recipients.map Prod.snd),
        flow.1.subscriber = none := by
  obtain ⟨w₁, ho, hafter⟩ := RecipientsPlan.of_yields_make h
  obtain ⟨hleads, hseeds⟩ := leads_openUp ho
  exact ⟨hleads.trans (.idle hafter.components), hseeds⟩

/-! ## Attaching -/

theorem leads_resolveInput {current : Option ChannelSource} {handler : Handler}
    {input : ResolvedInput} (h : Yields (resolveInput current handler) w input w') :
    Leads B (d :: t) w.nextComponent
      ({ d with channels := d.channels ++ input.made.toList } :: t)
      w'.nextComponent ∧
    ∀ channels,
      Reads handler current (channels ++ input.made.toList) input channels := by
  match current with
  | some (.channel c) =>
      obtain ⟨rfl, rfl⟩ := yields_pure.1 h
      exact ⟨by simpa using Leads.refl _ _,
        fun channels => by simpa using Reads.channel c channels⟩
  | some (.named name) =>
      obtain ⟨rfl, rfl⟩ := yields_pure.1 h
      exact ⟨by simpa using Leads.refl _ _,
        fun channels => by simpa using Reads.named name channels⟩
  | some (.fixedSubscriber id) =>
      simp only [resolveInput, yields_bind, yields_boundChannel, yields_pure] at h
      obtain ⟨c, _, ⟨rfl, rfl⟩, rfl, rfl⟩ := h
      exact ⟨.made rfl, fun channels => .marker id List.perm_append_comm rfl⟩
  | none =>
      simp only [resolveInput, yields_bind, yields_implicitChannel, yields_pure]
        at h
      obtain ⟨c, _, ⟨rfl, rfl⟩, rfl, rfl⟩ := h
      exact ⟨.made rfl, fun channels => .none List.perm_append_comm rfl⟩

theorem Builder.wired_of_yields {b b' : Builder} {spec : EndpointSpec}
    {input : ResolvedInput} {sides : List Registry}
    (h : Yields (b.wire spec input sides) w b' w') :
    ∃ e, b' = b.wired input sides e ∧ e.Fresh w.nextComponent ∧
      e.handler = spec.handler ∧
      e.input = input.target ∧ w'.nextComponent = w.nextComponent + 1 := by
  have h : Yields (do
      let r ← registerEndpoint (b.ready input sides).session
        (b.ready input sides).flowId (b.ready input sides).registry
        spec input.target
      let endpoint := r.2
      let b := flushDeferred { b.ready input sides with registry := r.1 }
      let produces := spec.handler.producesReplies
      let pending : PendingOutput :=
        { component := endpoint.key, owner := endpoint.label,
          requiresReply := spec.handler.requiresReply }
      return { b with
        cursor := { b.cursor with
          tail := some ⟨endpoint.label, produces⟩
          pending := if produces then some pending else none } } :
            Assembly Builder) w b' w' := h
  simp only [yields_bind, yields_pure] at h
  obtain ⟨⟨registry, e⟩, w₁, hreg, rfl, rfl⟩ := h
  obtain ⟨rfl, he, hnext, -, -⟩ := of_yields_registerEndpoint hreg
  have hhandler : e.handler = spec.handler := by rw [he]
  refine ⟨e, ?_, ⟨by rw [he], by rw [he]⟩, hhandler, by rw [he], hnext⟩
  rw [← hhandler]
  rfl

/-- An endpoint is attached where something may follow; while branches
converge it is a router or replies. -/
theorem leads_attach {spec : EndpointSpec} {b' : Builder} (ho : d.builder.Open)
    (hm : d.merge ≠ none → spec.handler.producesReplies = true ∨
      spec.handler.isRouter = true)
    (h : Yields (d.builder.attach spec) w b' w') :
    Attaches [.latest w'.nextComponent .next] B (d :: t) w.nextComponent
      ({ d with builder := b' } :: t) w'.nextComponent ∧
    ∃ input e, b' = d.builder.wired input [] e ∧ e.handler = spec.handler := by
  obtain ⟨input, w₁, hi, hw⟩ := Builder.of_yields_attach h
  obtain ⟨hleads, hreads⟩ := leads_resolveInput hi
  obtain ⟨e, rfl, hfresh, hhandler, hinput, hnext⟩ := Builder.wired_of_yields hw
  refine ⟨hleads.andThen ?_, input, e, rfl, hhandler⟩
  rw [hnext, ← hfresh.link_eq]
  rw [← hhandler] at hm hreads
  exact .work
    (.attach_alone (d := { d with channels := _ }) ho hm (hreads d.channels)
      hinput hfresh)

theorem Builder.open_wired {b : Builder} {input : ResolvedInput}
    {sides : List Registry} {e : Endpoint} (h : e.handler.producesReplies = true) :
    (b.wired input sides e).Open := by
  intro _
  rw [cursor_wired]
  simpa using h

theorem leads_bridge {b' : Builder} (ho : d.builder.Open)
    (h : Yields d.builder.bridge w b' w') :
    Attaches [.latest w'.nextComponent .next] B (d :: t) w.nextComponent
      ({ d with builder := b' } :: t) w'.nextComponent ∧
    b'.cursor.channel = none ∧ b'.Open := by
  obtain ⟨hleads, input, e, rfl, he⟩ :=
    leads_attach ho (fun _ => .inl rfl) (Builder.of_yields_bridge h)
  refine ⟨hleads, by rw [Builder.cursor_wired], Builder.open_wired ?_⟩
  rw [he]
  rfl

theorem Builder.open_of_yields_channel {b b' : Builder} {source : ChannelSource}
    (h : Yields (b.channel source) w b' w') : b.Open := by
  rw [channel, yields_bind] at h
  obtain ⟨_, _, ho, -⟩ := h
  exact fun _ => (yields_ensureOpen.1 ho).1

theorem leads_channel {source : ChannelSource} {b' : Builder} {rest : List Channel}
    (hc : (d.channels.map Component.channel).Perm
      (Builder.sourceChannels source ++ rest.map Component.channel))
    (hsub : ∀ c, source = .channel c → c.subscriber = none ∨ B c)
    (h : Yields (d.builder.channel source) w b' w') :
    Attaches (d.builder.bridged w'.nextComponent) B (d :: t) w.nextComponent
      ({ d with builder := b', channels := rest } :: t) w'.nextComponent := by
  have ho := Builder.open_of_yields_channel h
  obtain ⟨b₁, hb, rfl⟩ := Builder.of_yields_channel h
  rcases hb with ⟨hsome, hb⟩ | ⟨hnone, rfl, rfl⟩
  · obtain ⟨hattached, hnone, hopen⟩ := leads_bridge (t := t) (B := B) ho hb
    rw [Builder.bridged, if_pos (Option.isSome_iff_ne_none.2 hsome)]
    exact LeadsPast.andThen hattached
      (Leads.work (.append (d := { d with builder := b₁ }) hopen hnone hc hsub))
  · rw [Builder.bridged, hnone]
    exact Leads.work (.append ho hnone hc hsub)

theorem leads_tapPoint {attempted : String} {b' : Builder} {c : Channel}
    (h : Yields (d.builder.tapPoint attempted) w (b', c) w') :
    Leads B (d :: t) w.nextComponent ({ d with builder := b' } :: t)
      w'.nextComponent := by
  rw [Builder.tapPoint, yields_bind] at h
  obtain ⟨_, _, ho, h⟩ := h
  obtain ⟨hopen, rfl⟩ := Builder.yields_ensureOpen.1 ho
  split at h
  · split at h
    · obtain ⟨hpair, rfl⟩ := yields_pure.1 h
      cases hpair
      exact .refl _ _
    · exact absurd h not_yields_fail
  · exact absurd h not_yields_fail
  · next hnone =>
      simp only [yields_bind, yields_implicitChannel, yields_pure] at h
      obtain ⟨_, _, ⟨rfl, rfl⟩, hpair, rfl⟩ := h
      cases hpair
      refine (Leads.made (c := ⟨⟨_⟩, none, .direct, [], true, none⟩) rfl).trans
        (.work (.append (s := .channel _) (fun _ => hopen) hnone ?_ fun c hc => ?_))
      · rw [List.map_append]
        exact List.perm_append_comm
      · cases hc
        exact .inl rfl

theorem Callers.lends {c : Channel} (h : Callers B c) (b : Builder)
    (rest : List Channel) :
    Desk.Lends B { builder := b, channels := c :: rest } c :=
  h.imp_right fun hc => ⟨hc, by simp [Desk.components, Desk.loose]⟩

/-- A copy of the channel that lies ready becomes current, unless it is so
already. -/
theorem leads_openFanOut {b b' : Builder} {c : Channel} (hc : Callers B c)
    (h : Yields (b.openFanOut c) w b' w') :
    Attaches (if b'.currentKey? = b.currentKey? then []
      else b.bridged w'.nextComponent) B ({ builder := b, channels := [c] } :: t)
      w.nextComponent ({ builder := b', channels := [c] } :: t)
      w'.nextComponent := by
  have hcopy :
      Work B { builder := b, channels := [c] } w.nextComponent none
        { builder := b, channels := [c, c] }
      w.nextComponent := .take (.inr ⟨hc.lends b [], rfl⟩)
  refine (Leads.work hcopy).andThen ?_
  rcases Builder.of_yields_openFanOut h with ⟨-, rfl, rfl⟩ | ⟨hother, hy⟩
  · rw [if_pos rfl]
    exact Leads.work (.shed (.refl _) hc)
  · have hcurrent : b'.currentKey? = some c.key := by
      obtain ⟨b₁, -, rfl⟩ := Builder.of_yields_channel hy
      exact Builder.currentKey?_eq_some.2 ⟨c, b₁.channel_appended _, rfl⟩
    rw [if_neg fun heq => hother (heq.symm.trans hcurrent)]
    refine leads_channel (d := { builder := b, channels := [c, c] }) (.refl _)
      (fun c' hc' => ?_) hy
    cases hc'
    exact hc.subscriber

/-! ## Branches -/

/-- The steps of a flow are turns at the desk of a nested builder, past all
the builders nested in it. -/
def LeadsWithin (B : Channel → Prop) (steps : List Step) : Prop :=
  ∀ {b b' : Builder} {d : Desk} {t : List Desk} {w w' : Workshop},
    Yields (assembleSteps b steps) w b' w' →
    ∃ links, LeadsPast (Reaches steps b w) links B ({ builder := b } :: d :: t)
      w.nextComponent ({ builder := b' } :: d :: t) w'.nextComponent

theorem Builder.eq_toBranch {b : Builder} {br : Branch}
    (h : Yields b.intoBranch w br w') :
    br = b.toBranch ∧ w'.nextComponent = w.nextComponent := by
  rw [intoBranch, yields_bind] at h
  obtain ⟨_, w₁, hd, h⟩ := h
  have hnext : w₁.nextComponent = w.nextComponent := by
    unfold discard at hd
    split at hd
    · rw [(yields_pure.1 hd).2]
    · rw [yields_release.1 hd]
  rw [pending_flushDeferred, channel_flushDeferred] at h
  unfold toBranch
  split at h
  · exact absurd h not_yields_fail
  · next output hp hc =>
      obtain ⟨rfl, rfl⟩ := yields_pure.1 h
      rw [hp]
      exact ⟨rfl, hnext⟩
  · next c hp hc =>
      obtain ⟨rfl, rfl⟩ := yields_pure.1 h
      rw [hp, hc]
      exact ⟨rfl, hnext⟩
  · next hp hf hc =>
      obtain ⟨rfl, rfl⟩ := yields_pure.1 h
      refine ⟨?_, hnext⟩
      rw [hp]
      rcases hcur : b.cursor.channel with _ | (c | name | id)
      · rfl
      · exact absurd hcur (hc c)
      · rfl
      · rfl

theorem leads_runBranch {flow : Channel × List Step} {br : Branch}
    {rest : List Channel} (hf : LeadsWithin B flow.2) (hc : Offers B d flow.1 rest)
    (h : Yields (d.builder.runBranch flow) w br w') :
    LeadsPast (Reaches flow.2 (d.builder.branch flow.1) w) [] B
      (d :: t) w.nextComponent
      ({ d with branches := d.branches ++ [br], channels := rest } :: t)
      w'.nextComponent := by
  rw [Builder.runBranch, yields_bind] at h
  obtain ⟨nested, w₁, hs, hi⟩ := h
  obtain ⟨rfl, hnext⟩ := Builder.eq_toBranch hi
  obtain ⟨links, hled⟩ := hf hs
  rw [hnext]
  exact hled.nested (.push hc) (.pop (d := { d with channels := rest }))

/-- Branches that start at channels which lie ready for them, in order. -/
theorem leads_runReady {b : Builder} {flows : List (Channel × List Step)}
    {branches : List Branch} {rest : List Channel}
    (hf : ∀ flow ∈ flows, LeadsWithin B flow.2)
    (hs : ∀ flow ∈ flows, flow.1.subscriber = none ∨ B flow.1) (hb : d.builder = b)
    (hc : d.channels = flows.map Prod.fst ++ rest)
    (h : YieldsAll b.runBranch w flows branches w') :
    LeadsPast (b.Reaches flows w) [] B (d :: t) w.nextComponent
      ({ d with branches := d.branches ++ branches, channels := rest } :: t)
      w'.nextComponent := by
  induction h generalizing d with
  | nil w =>
      have hstay :
          Leads B (d :: t) w.nextComponent
            ({ d with branches := d.branches ++ [], channels := rest } :: t)
            w.nextComponent := by
        obtain ⟨builder, before, channels, merge⟩ := d
        obtain rfl : channels = rest := hc
        simpa using Leads.refl _ _
      exact LeadsPast.congr hstay fun _ _ => iff_false_intro Builder.not_reaches_nil
  | @cons w w₁ w' flow br flows branches hy _ ih =>
      subst hb
      have hoffers : Offers B d flow.1 (flows.map Prod.fst ++ rest) :=
        .ready (by rw [hc]; rfl) (hs flow List.mem_cons_self)
      have hone := leads_runBranch (t := t) (hf flow List.mem_cons_self) hoffers hy
      refine LeadsPast.congr (hone.trans ?_) fun _ _ => Builder.reaches_cons hy
      have hrest := ih
        (d :=
          { d with branches := d.branches ++ [br],
                   channels := flows.map Prod.fst ++ rest })
        (fun flow hm => hf flow (List.mem_cons_of_mem _ hm))
        (fun flow hm => hs flow (List.mem_cons_of_mem _ hm)) rfl rfl
      simpa using hrest

theorem Desk.Lends.branches {c : Channel} (h : d.Lends B c) (more : List Branch) :
    ({ d with branches := d.branches ++ more } : Desk).Lends B c := by
  refine h.imp_right fun ⟨hmade, hm⟩ => ⟨hmade, ?_⟩
  simp only [Desk.components, Desk.registered, Desk.branched, Desk.loose,
    List.flatMap_append, List.mem_append] at hm ⊢
  tauto

/-- Branches that start at copies of one channel. -/
theorem leads_runCopies {b : Builder} {c : Channel} {subscribers : List (List Step)}
    {branches : List Branch} (hf : ∀ steps ∈ subscribers, LeadsWithin B steps)
    (hc : d.Lends B c) (hb : d.builder = b)
    (h : YieldsAll b.runBranch w (subscribers.map fun steps => (c, steps)) branches
      w') :
    LeadsPast (b.Reaches (subscribers.map fun steps => (c, steps)) w) [] B
      (d :: t) w.nextComponent ({ d with branches := d.branches ++ branches } :: t)
      w'.nextComponent := by
  induction subscribers generalizing d w branches with
  | nil =>
      cases h
      have hstay : Leads B (d :: t) w'.nextComponent
          ({ d with branches := d.branches ++ [] } :: t) w'.nextComponent := by
        simpa using Leads.refl _ _
      exact LeadsPast.congr hstay fun _ _ => iff_false_intro Builder.not_reaches_nil
  | cons steps rest ih =>
      cases h with
      | @cons _ w₁ _ _ br _ branches hy hys =>
          subst hb
          have hone := leads_runBranch (t := t) (hf steps List.mem_cons_self)
            (Offers.copy hc) hy
          refine LeadsPast.congr (hone.trans ?_) fun _ _ => Builder.reaches_cons hy
          have hrest := ih (d := { d with branches := d.branches ++ [br] })
            (fun steps hm => hf steps (List.mem_cons_of_mem _ hm))
            (hc.branches [br]) rfl hys
          simpa using hrest

theorem Branch.linked_of_yields {br linked : Branch} {parent : Builder}
    {c : Channel} {key : ComponentKey}
    (h : Yields (br.addBridge parent c) w (linked, key) w') :
    ∃ e, linked = ⟨br.registry.add (.endpoint e), .closed⟩ ∧ key = e.key ∧
      e.Fresh w.nextComponent ∧
      e.handler.behaviour = .bridge ∧ e.input = .channel c ∧
      w'.nextComponent = w.nextComponent + 1 := by
  obtain ⟨e, hreg, rfl, rfl⟩ := of_yields_addBridge h
  obtain ⟨-, he, hnext, -, -⟩ := of_yields_registerEndpoint hreg
  exact ⟨e, rfl, rfl, ⟨by rw [he], by rw [he]⟩, by rw [he], by rw [he], hnext⟩

variable {l todo : List Branch} {br br' : Branch} {parent : Builder}

theorem leads_leaveOpen_one (hd : d.branches = l ++ br :: todo)
    (hm : d.merge = none) (h : Yields (br.leaveOpen parent) w br' w') :
    Leads B (d :: t) w.nextComponent ({ d with branches := l ++ br' :: todo } :: t)
      w'.nextComponent ∧
      br'.Settled := by
  have hsame :
      Leads B (d :: t) w.nextComponent ({ d with branches := l ++ br :: todo } :: t)
      w.nextComponent := by
    rw [← hd]
    exact .refl _ _
  unfold Branch.leaveOpen at h
  split at h
  · next output he =>
      split at h
      · exact absurd h not_yields_fail
      · next hr =>
          obtain ⟨rfl, rfl⟩ := yields_pure.1 h
          exact ⟨hsame, .inr ⟨output, he, by simpa using hr⟩⟩
  · next c he =>
      obtain ⟨⟨linked, key⟩, ha, rfl⟩ := yields_map.1 h
      obtain ⟨e, rfl, rfl, hfresh, hbridge, hinput, hnext⟩ :=
        Branch.linked_of_yields ha
      rw [hnext]
      exact
        ⟨(Leads.work
            (.tend hd (.link he (by simp [hm]) hfresh hbridge hinput))).trans
            (.work (.tend rfl (.leave rfl rfl))), .inl rfl⟩
  · next he =>
      obtain ⟨rfl, rfl⟩ := yields_pure.1 h
      exact ⟨hsame, .inl he⟩

theorem leads_leaveOpen {branches closed : List Branch}
    (hd : d.branches = l ++ branches) (hm : d.merge = none)
    (hdone : ∀ br ∈ l, br.Settled)
    (h : YieldsAll (fun br => br.leaveOpen parent) w branches closed w') :
    Leads B (d :: t) w.nextComponent ({ d with branches := l ++ closed } :: t)
      w'.nextComponent ∧
    ∀ br ∈ l ++ closed, br.Settled := by
  induction h generalizing d l with
  | nil w =>
      rw [← hd]
      refine ⟨.refl _ _, ?_⟩
      rw [hd, List.append_nil]
      exact hdone
  | @cons w w₁ w' br br' branches closed hy _ ih =>
      obtain ⟨hone, hsettled⟩ := leads_leaveOpen_one (t := t) (B := B) hd hm hy
      obtain ⟨hrest, hall⟩ := ih (d := { d with branches := l ++ br' :: branches })
        (l := l ++ [br']) (by simp) hm
        (by simpa [or_imp, forall_and] using ⟨hdone, hsettled⟩)
      rw [List.append_assoc] at hrest hall
      exact ⟨hone.trans hrest, hall⟩

theorem leads_converge_one {m : Meeting} (hd : d.branches = l ++ br :: todo)
    (hm : d.merge = some m) (h : Yields (br.converge parent m.channel) w br' w') :
    Leads B (d :: t) w.nextComponent ({ d with branches := l ++ br' :: todo } :: t)
      w'.nextComponent ∧
    br'.ending = .closed := by
  rcases Branch.of_yields_converge h
    with ⟨output, he, rfl, rfl⟩ | ⟨he, rfl, rfl⟩ | ⟨last, he, hk, rfl, rfl⟩ | ⟨last,
      linked, key, he, hk, ha, rfl⟩
  · exact ⟨.work (.tend hd (.bind he hm)), rfl⟩
  · rw [← hd]
    exact ⟨.refl _ _, he⟩
  · exact ⟨.work (.tend hd (.meet he hm hk)), rfl⟩
  · obtain ⟨e, rfl, rfl, hfresh, hbridge, hinput, hnext⟩ :=
      Branch.linked_of_yields ha
    rw [hnext]
    have hne : ∀ m ∈ d.merge, last.key ≠ m.channel.key := by
      intro m' hm'
      obtain rfl := Option.some.inj (hm.symm.trans hm')
      exact hk
    refine ⟨(Leads.work (.tend hd (.link he hne hfresh hbridge hinput))).trans ?_,
      rfl⟩
    exact .work
      (.tend (d := { d with branches := _ }) rfl (.bind (p := ⟨_, _, _⟩) rfl hm))

theorem leads_converge {m : Meeting} {branches closed : List Branch}
    (hd : d.branches = l ++ branches) (hdone : ∀ br ∈ l, br.ending = .closed)
    (hm : d.merge = some m)
    (h : YieldsAll (fun br => br.converge parent m.channel) w branches closed w') :
    Leads B (d :: t) w.nextComponent ({ d with branches := l ++ closed } :: t)
      w'.nextComponent ∧
    ∀ br ∈ l ++ closed, br.ending = .closed := by
  induction h generalizing d l with
  | nil w =>
      rw [← hd]
      refine ⟨.refl _ _, ?_⟩
      rw [hd, List.append_nil]
      exact hdone
  | @cons w w₁ w' br br' branches closed hy _ ih =>
      obtain ⟨hone, hclosed⟩ := leads_converge_one (t := t) (B := B) hd hm hy
      obtain ⟨hrest, hall⟩ := ih (d := { d with branches := l ++ br' :: branches })
        (l := l ++ [br']) (by simp)
        (by simpa [or_imp, forall_and] using ⟨hdone, hclosed⟩) hm
      rw [List.append_assoc] at hrest hall
      exact ⟨hone.trans hrest, hall⟩

/-! ## Routers -/

theorem Handler.producesReplies_of_isRouter {h : Handler} (hr : h.isRouter = true) :
    h.producesReplies = false := by
  unfold isRouter at hr
  split at hr
  · next heq => simp [producesReplies, Behaviour.producesReplies, heq]
  · next heq => simp [producesReplies, Behaviour.producesReplies, heq]
  · cases hr

/-- The channel that branches converge on is chosen, among the ends of the
branches or as a new one. -/
theorem leads_mergeChannel {m : Channel} {branches : List Branch}
    (ho : d.builder.Open) (hm : d.merge = none) (hb : d.branches = branches)
    (h : Yields (Builder.mergeChannel branches) w m w') :
    ∃ isNew,
      Leads B (d :: t) w.nextComponent ({ d with merge := some ⟨m, isNew⟩ } :: t)
        w'.nextComponent := by
  unfold Builder.mergeChannel at h
  split at h
  · next c hfind =>
      obtain ⟨rfl, rfl⟩ := yields_pure.1 h
      obtain ⟨br, hbr, hend⟩ := List.exists_of_findSome?_eq_some hfind
      have hbare : br.ending = .channel m := by
        unfold Branch.channel? at hend
        split at hend
        · next heq =>
            cases hend
            exact heq
        · cases hend
      exact ⟨false, .work (.meetBare ho hm (hb ▸ hbr) hbare)⟩
  · next hfind =>
      obtain ⟨rfl, rfl⟩ := yields_implicitChannel.1 h
      exact ⟨true,
        (Leads.made (c := ⟨⟨_⟩, none, .direct, [], true, none⟩) rfl).trans
          (.work
            (.meetReady (d := { d with channels := d.channels ++ [_] }) ho hm
              List.perm_append_comm rfl))⟩

/-- A router whose branches are assembled: they converge, the router is
attached, they follow it. -/
theorem leads_routed {default : Option DefaultOutput} {r : Builder.Reconciled}
    {spec : EndpointSpec} {b₁ b' : Builder} {w₁ w₂ : Workshop} (ho : d.builder.Open)
    (hm : d.merge = none) (hc : d.channels = []) (hs : spec.handler.isRouter = true)
    (hr : Yields (d.builder.reconcile d.branches default) w r w₁)
    (ha : Yields (d.builder.attach spec)
      { w₁ with nextHandler := w₁.nextHandler + 1 } b₁ w₂)
    (hy : Yields (b₁.absorbMerged r.branches r.merge) w₂ b' w') :
    Attaches (b'.routed w'.nextComponent) B (d :: t) w.nextComponent
      ({ builder := b' } :: t)
      w'.nextComponent := by
  obtain ⟨builder, branches, channels, merge⟩ := d
  obtain rfl : channels = [] := hc
  obtain rfl : merge = none := hm
  rcases Builder.of_yields_reconcile hr
    with ⟨m, w₀, hmerge, hconverge, hrm⟩ | ⟨hclosed, hrb, hrm, rfl⟩
  · obtain ⟨isNew, hchosen⟩ := leads_mergeChannel (B := B) (t := t)
      (d := ⟨builder, branches, [], none⟩) ho rfl rfl hmerge
    obtain ⟨hled, hclosed⟩ := leads_converge (B := B) (t := t) (l := [])
      (d := ⟨builder, branches, [], some ⟨m, isNew⟩⟩) rfl (by simp) rfl hconverge
    obtain ⟨hattached, input, e, rfl, he⟩ := leads_attach (B := B) (t := t)
      (d := ⟨builder, r.branches, [], some ⟨m, isNew⟩⟩) ho (fun _ => .inr hs) ha
    have hproduces := Handler.producesReplies_of_isRouter hs
    rw [← he] at hproduces
    rcases Builder.of_yields_absorbMerged hy with ⟨hnone, -, -⟩ | ⟨m', hm', hbridge⟩
    · rw [hrm] at hnone
      cases hnone
    · rw [hrm] at hm'
      cases hm'
      obtain ⟨input', w₃, hi, hw⟩ :=
        Builder.of_yields_attach (Builder.of_yields_bridge hbridge)
      obtain ⟨rfl, rfl⟩ := yields_pure.1 hi
      obtain ⟨e', rfl, hfresh, hhandler, hinput, hnext⟩ :=
        Builder.wired_of_yields hw
      have hmerged : Work B ⟨builder.wired input [] e, r.branches, [],
          some ⟨m, isNew⟩⟩ w₂.nextComponent (some ⟨e'.key, .merging⟩)
            { builder := ((builder.wired input [] e).mergedOn r.branches
                m).wired ⟨.channel m, none⟩ [] e' } (w₂.nextComponent + 1) := by
        refine .merge (m := ⟨m, isNew⟩) rfl hclosed ?_ ?_ ?_ hinput hfresh
        · simp only [Builder.cursor_wired]
        · simp only [Builder.cursor_wired, hproduces]
          rfl
        · rw [hhandler]
      have hlinks :
          Builder.routed (((builder.wired input [] e).mergedOn r.branches m).wired
            ⟨.channel m, none⟩ [] e') (w₂.nextComponent + 1) =
          [.latest w₂.nextComponent .next] ++ [⟨e'.key, .merging⟩] := by
        have hbridge : e'.handler.producesReplies = true := by
          rw [hhandler]
          rfl
        rw [Builder.routed, Builder.cursor_wired, if_pos hbridge, hfresh.link_eq]
        rfl
      rw [hnext, hlinks]
      exact ((hchosen.trans hled).andThen hattached).trans (.work hmerged)
  · obtain ⟨hattached, input, e, hwired, he⟩ := leads_attach (B := B) (t := t)
      (d := ⟨builder, branches, [], none⟩) ho (fun h => absurd rfl h) ha
    rw [hrb, hrm] at hy
    rcases Builder.of_yields_absorbMerged hy with ⟨-, rfl, rfl⟩ | ⟨m', hm', -⟩
    · have hlinks : (b₁.absorb branches).routed w'.nextComponent =
          [.latest w'.nextComponent .next] := by
        have hpending : b₁.cursor.pending = none := by
          rw [hwired, Builder.cursor_wired, he,
            Handler.producesReplies_of_isRouter hs]
          rfl
        rw [Builder.routed, show (b₁.absorb branches).cursor.pending = none
            from hpending]
        rfl
      rw [hlinks]
      exact LeadsPast.andThen hattached
        (Leads.work
          (.stow (d := ⟨b₁, branches, [], none⟩)
            (fun br hbr => .inl (hclosed br hbr)) rfl .absorb))
    · cases hm'

/-! ## Scatter-gathers -/

/-- An endpoint that reads a channel, where nothing is pending or held back,
is added and nothing else. -/
theorem Builder.wired_plain {b : Builder} {c : Channel} {e : Endpoint}
    (hp : b.cursor.pending = none) (hd : b.cursor.deferred = []) :
    b.wired ⟨.channel c, none⟩ [] e = { b with
        registry := b.registry.add (.endpoint e)
        cursor := (b.wired ⟨.channel c, none⟩ [] e).cursor } := by
  have hready : b.ready ⟨.channel c, none⟩ [] =
      { b with cursor := { b.cursor with channel := none } } := by
    unfold ready placeSides bindPending
    dsimp only
    rw [hp]
  unfold wired flushDeferred
  rw [hready]
  dsimp only
  rw [hd]

/-- The handler is that of a scatter-gather over the channels: it knows them,
the handler that gathers the replies, and how long it waits for them. -/
def Handler.Gathers (h : Handler) (scatter gather : Channel) (gatherer : Handler)
    (timeout : Duration) : Prop :=
  ∃ aggregator errorChannel, gatherer.behaviour = .aggregator aggregator ∧
    h.behaviour = .scatterGather
    { scatter, gather, gatherer := ⟨gatherer.key, aggregator⟩, timeout,
      errorChannel }

theorem Handler.Gathers.producesReplies {h gatherer : Handler}
    {scatter gather : Channel} {timeout : Duration}
    (hg : h.Gathers scatter gather gatherer timeout) :
    h.producesReplies = true := by
  obtain ⟨aggregator, errorChannel, -, hb⟩ := hg
  rw [Handler.producesReplies, hb]
  rfl

theorem Handler.Gathers.isScatterEnd {h gatherer : Handler}
    {scatter gather : Channel} {timeout : Duration}
    (hg : h.Gathers scatter gather gatherer timeout) :
    gatherer.isScatterEnd = true := by
  obtain ⟨aggregator, errorChannel, hb, -⟩ := hg
  rw [Handler.isScatterEnd, hb]

/-- What a scatter-gather does once its branches are assembled: they converge
on the gather channel, the endpoint is attached, and the two channels are
registered with their readers and with the branches in between. -/
theorem Builder.gathered_of_yields {b b' : Builder} {plan : ScatterGatherPlan}
    {release : Release} {scattering : Scattering} {gather : Channel}
    (h : Yields (b.finishScatterGather plan release scattering gather) w b' w') :
    ∃ branches w₁ spec b₁ w₂ reader gatherer,
      YieldsAll (fun br => br.converge b gather) w scattering.branches branches w₁ ∧
      spec.handler.Gathers scattering.channel gather gatherer.handler
        (plan.wait b.config) ∧
      Yields (b.attach spec) { w₁ with nextHandler := w₁.nextHandler + 1 + 1 }
        b₁ w₂ ∧
      (reader = none ↔ scattering.list = none) ∧
      (∀ e ∈ reader, e.Fresh w₂.nextComponent ∧
        (∃ list id, scattering.list = some (list, id) ∧
          e.handler.behaviour = .recipientList list) ∧
        e.input = .channel scattering.channel) ∧
      gatherer.Fresh (w₂.nextComponent + reader.toList.length) ∧
      gatherer.input = .channel gather ∧
      b' = ((b₁.posted scattering.channel reader).absorb branches).posted gather
        (some gatherer) ∧
      w'.nextComponent = w₂.nextComponent + reader.toList.length + 1 := by
  simp only [finishScatterGather, converge, yields_bind, yields_newHandler,
    yields_pure] at h
  obtain ⟨branches, w₁, hc, _, _, ⟨rfl, rfl⟩, _, _, ⟨rfl, rfl⟩, b₁, w₂, ha, b₂,
    w₃, hs, b₃, _, hg, rfl, rfl⟩ := h
  -- Behind the endpoint nothing is held back and no channel is current.
  obtain ⟨input, w₀, -, hw⟩ := of_yields_attach ha
  obtain ⟨e, hready, -, -, -, -⟩ := wired_of_yields hw
  have hdeferred : b₁.cursor.deferred = [] := by rw [hready, cursor_wired]
  have hchannel : b₁.cursor.channel = none := by rw [hready, cursor_wired]
  obtain ⟨_, w₄, hi, hgw⟩ := of_yields_attach hg
  obtain ⟨rfl, rfl⟩ := yields_pure.1 hi
  obtain ⟨gatherer, rfl, hfresh, hhandler, hinput, hnext⟩ := wired_of_yields hgw
  obtain ⟨flowId, session, nested, config, registry,
    ⟨channel, tail, pending, deferred⟩, namedInput, first⟩ := b₁
  obtain rfl : deferred = [] := hdeferred
  obtain rfl : channel = none := hchannel
  unfold registerScatter at hs
  dsimp only at hs
  split at hs
  · next list id hl =>
      simp only [yields_bind, yields_newHandler, yields_pure] at hs
      obtain ⟨_, _, ⟨rfl, rfl⟩, b₄, _, hs, rfl, rfl⟩ := hs
      obtain ⟨_, _, hi, hlw⟩ := of_yields_attach hs
      obtain ⟨rfl, rfl⟩ := yields_pure.1 hi
      obtain ⟨reader, hb₄, hrfresh, hrhandler, hrinput, hrnext⟩ :=
        wired_of_yields hlw
      have hpending : b₄.cursor.pending = none := by
        rw [hb₄, cursor_wired, hrhandler]
        rfl
      have hheld : b₄.cursor.deferred = [] := by rw [hb₄, cursor_wired]
      rw [wired_plain rfl rfl] at hb₄
      refine ⟨branches, w₁, _, _, _, some reader, gatherer, yieldsAll_of_mapM hc,
        ?_, ha, by simp [hl], ?_, ?_, hinput, ?_, ?_⟩
      · rw [hhandler]
        exact ⟨_, _, rfl, rfl⟩
      · intro e he
        cases he
        exact ⟨hrfresh, ⟨list, id, hl, by rw [hrhandler]⟩, hrinput⟩
      · rw [hrnext] at hfresh
        exact hfresh
      · rw [wired_plain (by exact hpending) (by exact hheld), cursor_wired]
        dsimp only [absorb, continueFrom]
        rw [hb₄]
        rfl
      · rw [hnext, hrnext]
        rfl
  · next hl =>
      simp only [yields_bind, yields_pure] at hs
      obtain ⟨_, _, ⟨rfl, rfl⟩, rfl, rfl⟩ := hs
      refine ⟨branches, w₁, _, _, _, none, gatherer, yieldsAll_of_mapM hc, ?_,
        ha, by simp [hl], by simp, hfresh, hinput, ?_, hnext⟩
      · rw [hhandler]
        exact ⟨_, _, rfl, rfl⟩
      · rw [wired_plain rfl rfl, cursor_wired]
        rfl

theorem leads_gathered {plan : ScatterGatherPlan} {release : Release}
    {scattering : Scattering} {gather : Channel} {b' : Builder}
    (ho : d.builder.Open) (hm : d.merge = none)
    (hb : d.branches = scattering.branches)
    (hc : d.channels.Perm [scattering.channel, gather])
    (hg : gather.subscriber = none)
    (hlist : scattering.list ≠ none → scattering.channel.subscriber = none)
    (hfan : scattering.list = none → Callers B scattering.channel)
    (h : Yields (d.builder.finishScatterGather plan release scattering gather)
      w b' w') :
    Attaches (scatterLinks scattering.list.isSome w'.nextComponent) B
      (d :: t) w.nextComponent ({ builder := b' } :: t) w'.nextComponent := by
  obtain ⟨builder, branches, channels, merge⟩ := d
  obtain rfl : merge = none := hm
  obtain rfl : branches = scattering.branches := hb
  obtain ⟨closed, w₁, spec, b₁, w₂, reader, gatherer, hconverge, hgathers, ha,
    hnone, hreader, hgatherer, hinput, rfl, hnext⟩ := Builder.gathered_of_yields h
  have hchosen : Work B ⟨builder, scattering.branches, channels,
      none⟩ w.nextComponent none ⟨builder, scattering.branches,
        [scattering.channel], some ⟨gather, true⟩⟩ w.nextComponent :=
    .meetReady ho rfl (hc.trans (.swap _ _ _)) hg
  obtain ⟨hled, hclosed⟩ := leads_converge (B := B) (t := t) (l := [])
    (m := ⟨gather, true⟩)
    (d := ⟨builder, scattering.branches, [scattering.channel], some ⟨gather, true⟩⟩)
    rfl (by simp) rfl hconverge
  obtain ⟨hattached, -⟩ := leads_attach (B := B) (t := t)
    (d := ⟨builder, closed, [scattering.channel], some ⟨gather, true⟩⟩) ho
    (fun _ => .inl hgathers.producesReplies) ha
  have hpart : Work B ⟨b₁, closed, [scattering.channel],
      some ⟨gather, true⟩⟩ w₂.nextComponent none ⟨b₁, closed,
        [gather, scattering.channel], none⟩ w₂.nextComponent :=
    .part rfl hclosed hg
  have hpost : Work B ⟨b₁, closed, [gather, scattering.channel],
      none⟩ w₂.nextComponent (reader.map fun e => ⟨e.key, .aside⟩)
        ⟨b₁.posted scattering.channel reader, closed, [gather],
          none⟩ (w₂.nextComponent + reader.toList.length) := by
    refine .post rfl (.swap _ _ _) (fun e he => ?_) fun he => hfan (hnone.1 he)
    obtain ⟨hfresh, ⟨list, id, hl, hb⟩, hi⟩ := hreader e he
    refine ⟨hfresh, by rw [Handler.isScatterEnd, hb], hi, hlist ?_⟩
    rw [hl]
    exact nofun
  have hstow : Work B ⟨b₁.posted scattering.channel reader, closed, [gather],
      none⟩ (w₂.nextComponent + reader.toList.length) none
        ⟨(b₁.posted scattering.channel reader).absorb closed, [], [gather],
          none⟩ (w₂.nextComponent + reader.toList.length) :=
    .stow (fun br hbr => .inl (hclosed br hbr)) rfl .absorb
  have hlast : Work B ⟨(b₁.posted scattering.channel reader).absorb closed, [],
      [gather], none⟩ (w₂.nextComponent + reader.toList.length) (some
        ⟨gatherer.key, .aside⟩)
        ⟨((b₁.posted scattering.channel reader).absorb closed).posted gather
            (some gatherer), [], [],
          none⟩ (w₂.nextComponent + reader.toList.length + 1) := by
    refine @Work.post B _ gather (some gatherer) [] _ rfl (.refl _)
      (fun e he => ?_) (by simp)
    cases he
    exact ⟨hgatherer, hgathers.isScatterEnd, hinput, hg⟩
  have hlinks : scatterLinks scattering.list.isSome w'.nextComponent =
      [.latest w₂.nextComponent .next] ++
        ((reader.map fun e => (⟨e.key, .aside⟩ : Link)).toList ++
          [⟨gatherer.key, .aside⟩]) := by
    rw [hgatherer.link_eq, hnext]
    cases hl : scattering.list with
    | none =>
        rw [hnone.2 hl]
        rfl
    | some members =>
        obtain ⟨e, rfl⟩ := Option.ne_none_iff_exists'.1 fun hr =>
          absurd (hl.symm.trans (hnone.1 hr)) nofun
        rw [Option.map_some, (hreader e rfl).1.link_eq]
        rfl
  rw [hlinks, hnext]
  exact (((Leads.work hchosen).trans hled).andThen hattached).andThen
    (((Leads.work hpart).andThen (Attaches.of_work hpost)).andThen
      ((Leads.work hstow).andThen (.work hlast)))

end

/-! ## The kinds of steps -/

namespace Step

variable {B : Channel → Prop} {t : List Desk} {b b' : Builder} {w w' : Workshop}

theorem turns_channel {plan : SourcePlan}
    (hb : ∀ c ∈ (Step.channel plan).brought, B c)
    (h : Yields ((Step.channel plan).assemble b) w b' w') :
    Attaches (b.bridged w'.nextComponent) B ({ builder := b } :: t) w.nextComponent
      ({ builder := b' } :: t)
      w'.nextComponent := by
  obtain ⟨source, w₁, hm, hc⟩ := of_yields_channel h
  rw [brought_eq] at hb
  match plan with
  | .channel plan =>
      obtain ⟨c, hplan, rfl⟩ :=
        yields_map.1 (by simpa only [SourcePlan.make] using hm)
      obtain ⟨hmade, hcall⟩ := ChannelPlan.leads_make (B := B) (t := t)
        (d := { builder := b }) (fun c hc => hb c (List.mem_append_left _ hc)) hplan
      refine hmade.andThen
        (leads_channel (d := { builder := b, channels := [c] }) (.refl _)
          (fun c' hc' => ?_) hc)
      cases hc'
      exact hcall.subscriber
  | .named name =>
      obtain ⟨rfl, rfl⟩ := yields_pure.1 (by simpa only [SourcePlan.make] using hm)
      exact leads_channel (d := { builder := b }) (.refl _) (by simp) hc
  | .fixedSubscriber id =>
      obtain ⟨rfl, rfl⟩ := yields_pure.1 (by simpa only [SourcePlan.make] using hm)
      exact leads_channel (d := { builder := b }) (.refl _) (by simp) hc

theorem turns_intercept {plan : InterceptorPlan}
    (h : Yields ((Step.intercept plan).assemble b) w b' w') :
    Leads B ({ builder := b } :: t) w.nextComponent ({ builder := b' } :: t)
      w'.nextComponent := by
  obtain ⟨interceptor, w₁, hm, hi⟩ := of_yields_intercept h
  obtain ⟨c, w₂, ht, rfl⟩ := Builder.of_yields_intercept hi
  exact (Leads.idle (plan.make_leaves.of_yields hm).components).trans
    ((leads_tapPoint (d := { builder := b }) ht).trans (.idle (Nat.le_refl _)))

theorem turns_endpoint {plan : EndpointPlan}
    {sides : List (ChannelPlan × List Step)}
    (hb : ∀ c ∈ (Step.endpoint plan sides).brought, B c)
    (hf : ∀ flow ∈ (Step.endpoint plan sides).flows, LeadsWithin B flow)
    (h : Yields ((Step.endpoint plan sides).assemble b) w b' w') :
    LeadsPast ((Step.endpoint plan sides).Reaches b w)
      ((Step.endpoint plan sides).links b w) B ({ builder := b } :: t)
      w.nextComponent ({ builder := b' } :: t) w'.nextComponent := by
  have hy := h
  rw [assemble, Builder.yields_guarded] at h
  simp only [yields_bind, Builder.yields_ensureOpen, assembleSides_eq] at h
  obtain ⟨handler, w₁, hm, seeds, _, hs, _, w₂, ⟨ho, rfl⟩, input, _, hi, _, w₃,
    hp, branches, w₄, hr, closed, w₅, hl, hw⟩ := h
  obtain rfl := eq_of_yields_checkPoller hp
  obtain ⟨hmade, hcall, hlen⟩ := leads_makeSides (B := B) (t := t)
    (d := { builder := b }) (fun side hside c hc => hb c (by
      rw [brought_eq]
      exact List.mem_append_left _ (List.mem_flatMap.2 ⟨side, hside, hc⟩)))
        (yieldsAll_of_mapM hs)
  obtain ⟨hinput, hreads⟩ := leads_resolveInput (B := B) (t := t)
    (d := { builder := b, channels := seeds }) hi
  have hzip : (seeds.zip (Step.endpoint plan sides).flows).map Prod.fst = seeds :=
    List.map_fst_zip (by simp [flows, hlen])
  have hrun := leads_runReady (t := t)
    (d := { builder := b, channels := seeds ++ input.made.toList })
    (fun flow hm => hf flow.2 (List.of_mem_zip hm).2)
    (fun flow hm => (hcall flow.1 (List.of_mem_zip hm).1).subscriber) rfl
    (by rw [hzip]) (yieldsAll_of_mapM hr)
  obtain ⟨hleft, hsettled⟩ := leads_leaveOpen (B := B) (t := t) (l := [])
    (d := { builder := b, branches, channels := input.made.toList }) rfl rfl
    (by simp) (yieldsAll_of_mapM hl)
  obtain ⟨e, rfl, hfresh, hhandler, htarget, hnext⟩ := Builder.wired_of_yields hw
  have hready :=
    ((Leads.idle (plan.handler.make_leaves.of_yields hm).components).trans
      hmade).trans hinput
  have hprepare : Yields ((Step.endpoint plan sides).prepare b) w
      (b, seeds.zip (Step.endpoint plan sides).flows) w₃ := by
    simp only [prepare, yields_bind, yields_pure]
    exact ⟨handler, w₁, hm, seeds, _, hs, input, _, hi, rfl, rfl⟩
  have hlinks : (Step.endpoint plan sides).links b w = [⟨e.key, .next⟩] := by
    rw [links_of_yields hprepare hy, hnext, hfresh.link_eq]
    rfl
  have hreads := hreads []
  rw [← show e.handler = handler from hhandler] at hreads
  rw [hlinks, hnext]
  refine LeadsPast.congr ((hready.past (hrun.andThen hleft)).andThen ?_) fun _ _ =>
    reaches_iff hprepare
  exact .work
    (.attach
      (d := { builder := b, branches := closed, channels := input.made.toList })
      (fun _ => ho) (List.append_nil _).symm hsettled (fun hne => absurd rfl hne)
      hreads htarget hfresh)

theorem turns_wireTap {plan : TapPlan} {destination : Destination}
    (hf : ∀ flow ∈ (Step.wireTap plan destination).flows, LeadsWithin B flow)
    (h : Yields ((Step.wireTap plan destination).assemble b) w b' w') :
    LeadsPast ((Step.wireTap plan destination).Reaches b w)
      ((Step.wireTap plan destination).links b w) B ({ builder := b } :: t)
      w.nextComponent ({ builder := b' } :: t) w'.nextComponent := by
  have hy := h
  obtain ⟨opening, w₁, b₁, c, w₂, flow, w₃, tap, ho, ht, hr, hw⟩ :=
    of_yields_wireTap h
  obtain ⟨closed, w₄, hl, rfl, rfl⟩ := Builder.of_yields_finishTap hw
  obtain ⟨hmade, hseeds⟩ :=
    Destination.leads_openUp (B := B) (t := t) (d := { builder := b }) ho
  have htap := leads_tapPoint (B := B) (t := t)
    (d :=
      { builder := b,
        channels := (seededFlows [opening] [destination]).map Prod.fst }) ht
  have hrun := leads_runReady (t := t)
    (d :=
      { builder := b₁,
        channels := (seededFlows [opening] [destination]).map Prod.fst })
    (fun flow hm => hf flow.2 (by simpa [flows] using seededFlows_snd_mem hm))
    (fun flow hm => .inl (hseeds flow hm)) rfl (List.append_nil _).symm hr
  obtain ⟨hleft, hsettled⟩ := leads_leaveOpen (B := B) (t := t) (l := [])
    (d := { builder := b₁, branches := flow }) rfl rfl (by simp) hl
  have hprepare : Yields ((Step.wireTap plan destination).prepare b) w
      (b₁, seededFlows [opening] [destination]) w₂ := by
    simp only [prepare, yields_bind, yields_pure]
    exact ⟨opening, w₁, ho, (b₁, c), w₂, ht, rfl, rfl⟩
  rw [links_of_yields hprepare hy]
  exact LeadsPast.congr
    ((((hmade.trans htap).past hrun).andThen hleft).andThen
      (Leads.work
        (.stow (d := { builder := b₁, branches := closed }) hsettled rfl .hold)))
    fun _ _ => reaches_iff hprepare

theorem turns_route {plan : RouterPlan} {mappings : List (String × Destination)}
    (hf : ∀ flow ∈ (Step.route plan mappings).flows, LeadsWithin B flow)
    (h : Yields ((Step.route plan mappings).assemble b) w b' w') :
    LeadsPast ((Step.route plan mappings).Reaches b w)
      ((Step.route plan mappings).links b w) B ({ builder := b } :: t)
      w.nextComponent ({ builder := b' } :: t) w'.nextComponent := by
  have hyields := h
  rw [assemble, Builder.yields_guarded] at h
  simp only [yields_bind, yields_ensure, Builder.yields_ensureOpen,
    assembleMappings_eq, Builder.finishRoute, yields_newHandler] at h
  obtain ⟨parts, _, hm, _, _, ⟨-, rfl⟩, _, w₁, ⟨ho, rfl⟩, branches, w₂, hr, r,
    w₃, hrec, _, _, ⟨rfl, rfl⟩, b₁, w₄, ha, hy⟩ := h
  obtain ⟨hmade, hseeds⟩ :=
    leads_makeRouter (B := B) (t := t) (d := { builder := b }) hm
  have hrun := leads_runReady (t := t) (d := { builder := b, channels := _ })
    (fun flow hm => hf flow.2 (by
      simpa [flows, List.flatMap_map] using seededFlows_snd_mem hm))
        (fun flow hm => .inl (hseeds flow hm)) rfl
      (List.append_nil _).symm (yieldsAll_of_mapM hr)
  have hprepare : Yields ((Step.route plan mappings).prepare b) w (b,
      seededFlows (parts.openings.map Prod.snd) (mappings.map Prod.snd)) w₁ := by
    simp only [prepare, yields_bind, yields_pure]
    exact ⟨parts, _, hm, rfl, rfl⟩
  rw [links_of_yields hprepare hyields]
  exact LeadsPast.congr
    ((hmade.past hrun).andThen
      (leads_routed (d := { builder := b, branches }) (fun _ => ho) rfl rfl rfl
        hrec ha hy)) fun _ _ =>
          reaches_iff hprepare

theorem turns_routeToRecipients {plan : RecipientsPlan}
    {recipients : List (Option String × Destination)}
    (hf : ∀ flow ∈ (Step.routeToRecipients plan recipients).flows,
      LeadsWithin B flow)
    (h : Yields ((Step.routeToRecipients plan recipients).assemble b) w b' w') :
    LeadsPast ((Step.routeToRecipients plan recipients).Reaches b w)
      ((Step.routeToRecipients plan recipients).links b w) B
      ({ builder := b } :: t) w.nextComponent ({ builder := b' } :: t)
      w'.nextComponent := by
  have hyields := h
  rw [assemble, Builder.yields_guarded] at h
  simp only [yields_bind, yields_ensure, Builder.yields_ensureOpen,
    assembleRecipients_eq, Builder.finishRecipients, yields_newHandler] at h
  obtain ⟨parts, _, hm, _, _, ⟨-, rfl⟩, _, w₁, ⟨ho, rfl⟩, branches, w₂, hr, r,
    w₃, hrec, _, _, ⟨rfl, rfl⟩, b₁, w₄, ha, hy⟩ := h
  obtain ⟨hmade, hseeds⟩ :=
    leads_makeRecipients (B := B) (t := t) (d := { builder := b }) hm
  have hrun := leads_runReady (t := t) (d := { builder := b, channels := _ })
    (fun flow hm => hf flow.2 (by
      simpa [flows, List.flatMap_map] using seededFlows_snd_mem hm))
        (fun flow hm => .inl (hseeds flow hm)) rfl
      (List.append_nil _).symm (yieldsAll_of_mapM hr)
  have hprepare : Yields ((Step.routeToRecipients plan recipients).prepare b) w (b,
      seededFlows (parts.openings.map Prod.snd) (recipients.map Prod.snd)) w₁ := by
    simp only [prepare, yields_bind, yields_pure]
    exact ⟨parts, _, hm, rfl, rfl⟩
  rw [links_of_yields hprepare hyields]
  exact LeadsPast.congr
    ((hmade.past hrun).andThen
      (leads_routed (d := { builder := b, branches }) (fun _ => ho) rfl rfl rfl
        hrec ha hy)) fun _ _ =>
          reaches_iff hprepare

/-- Subscribers of a channel that lies ready start at copies of it. -/
theorem turns_publishSubscribe {plan : FanOutPlan} {subscribers : List (List Step)}
    (hb : ∀ c ∈ (Step.publishSubscribe plan subscribers).brought, B c)
    (hf : ∀ flow ∈ (Step.publishSubscribe plan subscribers).flows,
      LeadsWithin B flow)
    (h : Yields ((Step.publishSubscribe plan subscribers).assemble b) w b' w') :
    LeadsPast ((Step.publishSubscribe plan subscribers).Reaches b w)
      ((Step.publishSubscribe plan subscribers).links b w) B
      ({ builder := b } :: t) w.nextComponent ({ builder := b' } :: t)
      w'.nextComponent := by
  have hy := h
  obtain ⟨given, w₁, c, w₂, b₁, w₃, branches, w₄, hm, hc, ho, hr, hw⟩ :=
    of_yields_publishSubscribe h
  obtain ⟨closed, hl, rfl⟩ := Builder.of_yields_finishFanOut hw
  obtain ⟨hgiven, hcall⟩ := FanOutPlan.leads_make (B := B) (t := t)
    (d := { builder := b }) (fun c hc => hb c (by
      rw [brought_eq]
      exact List.mem_append_left _ hc)) hm
  obtain ⟨channels, hchannels, hmade, hcall⟩ := leads_fanOutChannel (B := B)
    (t := t) (d := { builder := b, channels := given.toList }) hcall hc
    (.of_eq (List.append_nil _).symm)
  obtain rfl := List.perm_singleton.1 hchannels
  have hopened := leads_openFanOut (t := t) hcall ho
  have hrun := leads_runCopies (t := t) (d := { builder := b₁, channels := [c] }) hf
    (hcall.lends _ []) rfl hr
  obtain ⟨hleft, hsettled⟩ := leads_leaveOpen (B := B) (t := t) (l := [])
    (d := { builder := b₁, branches, channels := [c] }) rfl rfl (by simp) hl
  have hstow :
      Work B { builder := b₁, branches := closed, channels := [c] } w'.nextComponent
        none { builder := b₁.absorb closed, channels := [c] } w'.nextComponent :=
    .stow hsettled rfl .absorb
  have hshed :
      Work B { builder := b₁.absorb closed, channels := [c] } w'.nextComponent
        none { builder := b₁.absorb closed } w'.nextComponent :=
    .shed (.refl _) hcall
  have hprepare : Yields ((Step.publishSubscribe plan subscribers).prepare b) w
      (b₁, subscribers.map fun steps => (c, steps)) w₃ := by
    simp only [prepare, yields_bind, yields_pure]
    exact ⟨given, w₁, hm, c, w₂, hc, b₁, w₃, ho, rfl, rfl⟩
  have hbehind :=
    (hrun.andThen hleft).andThen ((Leads.work hstow).trans (.work hshed))
  have hled := ((hgiven.trans hmade).andThen hopened).past hbehind
  simp only [List.append_nil] at hled
  rw [links_of_yields hprepare hy]
  exact LeadsPast.congr hled fun _ _ => reaches_iff hprepare

theorem turns_scatterRecipients {plan : ScatterGatherPlan} {list : RecipientsPlan}
    {recipients : List (Option String × Destination)}
    (hf : ∀ flow ∈ (Step.scatterGather plan (.recipients list recipients)).flows,
      LeadsWithin B flow)
    (h : Yields ((Step.scatterGather plan (.recipients list recipients)).assemble b)
      w b' w') :
    LeadsPast ((Step.scatterGather plan (.recipients list recipients)).Reaches b w)
      ((Step.scatterGather plan (.recipients list recipients)).links b w) B
      ({ builder := b } :: t) w.nextComponent ({ builder := b' } :: t)
      w'.nextComponent := by
  have hyields := h
  rw [assemble, Builder.yields_guarded] at h
  simp only [Scatter.make, Scatter.assemble, yields_bind, yields_ensure,
    Builder.yields_ensureOpen, yields_implicitChannel, yields_pure,
    assembleRecipients_eq] at h
  obtain ⟨release, w₁, hr, _, _, ⟨parts, _, hm, rfl, rfl⟩, _, _, ⟨-, rfl⟩, _,
    w₂, ⟨ho, rfl⟩, gather, _, ⟨rfl, rfl⟩, scattering, w₃,
    ⟨_, _, ⟨rfl, rfl⟩, branches, _, hy, rfl, rfl⟩, hg⟩ := h
  obtain ⟨hmade, hseeds⟩ :=
    leads_makeRecipients (B := B) (t := t) (d := { builder := b }) hm
  have hready :=
    (Leads.idle (plan.gather.release.make_leaves.of_yields hr).components).trans
    hmade
  have hgather :=
    hready.trans (.made (c := ⟨⟨_⟩, none, .direct, [], true, none⟩) rfl)
  have hscatter :=
    hgather.trans (.made (c := ⟨⟨_⟩, none, .direct, [], true, none⟩) rfl)
  have hprepare :
      Yields ((Step.scatterGather plan (.recipients list recipients)).prepare b) w
        (b, seededFlows (parts.openings.map Prod.snd) (recipients.map Prod.snd))
        { w₂ with nextComponent := w₂.nextComponent + 1 + 1 } := by
    simp only [prepare, yields_bind, yields_implicitChannel, yields_pure]
    exact ⟨release, w₁, hr, parts, _, hm, _, _, ⟨rfl, rfl⟩, _, _,
      ⟨rfl, rfl⟩, rfl, rfl⟩
  rw [links_of_yields hprepare hyields]
  refine LeadsPast.congr
    (hscatter.past
      ((leads_runReady (t := t) (d := { builder := b, channels := _ })
          (fun flow hm =>
            hf flow.2
            (by simpa [flows, List.flatMap_map] using seededFlows_snd_mem hm))
          (fun flow hm => .inl (hseeds flow hm)) rfl
          (by simp only [List.nil_append, List.append_assoc]; rfl)
          (yieldsAll_of_mapM hy)).andThen ?_)) fun _ _ => reaches_iff hprepare
  exact leads_gathered (d := { builder := b, branches, channels := _ })
    (fun _ => ho) rfl rfl List.perm_append_comm rfl (fun _ => rfl) (by simp) hg

theorem turns_scatterPublish {plan : ScatterGatherPlan} {fan : FanOutPlan}
    {subscribers : List (List Step)}
    (hb : ∀ c ∈ (Step.scatterGather plan (.publish fan subscribers)).brought, B c)
    (hf : ∀ flow ∈ (Step.scatterGather plan (.publish fan subscribers)).flows,
      LeadsWithin B flow)
    (h : Yields ((Step.scatterGather plan (.publish fan subscribers)).assemble b)
      w b' w') :
    LeadsPast ((Step.scatterGather plan (.publish fan subscribers)).Reaches b w)
      ((Step.scatterGather plan (.publish fan subscribers)).links b w) B
      ({ builder := b } :: t) w.nextComponent ({ builder := b' } :: t)
      w'.nextComponent := by
  have hyields := h
  rw [assemble, Builder.yields_guarded] at h
  simp only [Scatter.make, Scatter.assemble, yields_bind, yields_ensure,
    Builder.yields_ensureOpen, yields_implicitChannel, yields_pure,
    assembleSubscribers_eq] at h
  obtain ⟨release, w₁, hr, _, w₂, ⟨given, _, hm, rfl, rfl⟩, _, _, ⟨-, rfl⟩, _,
    _, ⟨ho, rfl⟩, gather, _, ⟨rfl, rfl⟩, scattering, w₄,
    ⟨c, w₃, hc, branches, _, hy, rfl, rfl⟩, hg⟩ := h
  obtain ⟨hgiven, hcall⟩ := FanOutPlan.leads_make (B := B) (t := t)
    (d := { builder := b }) (fun c hc => hb c (by
      rw [brought_eq]
      exact List.mem_append_left _ hc)) hm
  have hgather :=
    ((Leads.idle (plan.gather.release.make_leaves.of_yields hr).components).trans
      hgiven).trans (.made (c := ⟨⟨_⟩, none, .direct, [], true, none⟩) rfl)
  obtain ⟨channels, hchannels, hmade, hcall⟩ := leads_fanOutChannel (B := B)
    (t := t) (d := { builder := b, channels := given.toList ++ [_] }) hcall hc
    (.refl _)
  have hlends : Desk.Lends B { builder := b, channels } c :=
    hcall.imp_right fun hmade =>
      ⟨hmade, List.mem_append_right _ (List.mem_append_left _
        (List.mem_map_of_mem (hchannels.symm.subset List.mem_cons_self)))⟩
  have hrun := leads_runCopies (t := t) (d := { builder := b, channels }) hf
    hlends rfl (yieldsAll_of_mapM hy)
  have hprepare :
      Yields ((Step.scatterGather plan (.publish fan subscribers)).prepare b) w (b,
        subscribers.map fun steps => (c, steps)) w₃ := by
    simp only [prepare, yields_bind, yields_implicitChannel, yields_pure]
    exact ⟨release, w₁, hr, given, _, hm, _, _, ⟨rfl, rfl⟩, c, _, hc, rfl, rfl⟩
  rw [links_of_yields hprepare hyields]
  exact LeadsPast.congr
    (((hgather.trans hmade).past hrun).andThen
      (leads_gathered (d := { builder := b, branches, channels })
        (fun _ => ho) rfl rfl hchannels rfl (by simp) (fun _ => hcall) hg))
    fun _ _ => reaches_iff hprepare

end Step

/-! ## All programs -/

variable {B : Channel → Prop} {b b' : Builder} {w w' : Workshop}

/-- A step that answers is a series of turns at the desk of its builder, past
all the builders nested in it. -/
theorem Step.turns {s : Step} {t : List Desk} (hb : ∀ c ∈ s.brought, B c)
    (hf : ∀ flow ∈ s.flows, LeadsWithin B flow) (hfresh : s.isFresh = false)
    (h : Yields (s.assemble b) w b' w') :
    LeadsPast (s.Reaches b w) (s.links b w) B ({ builder := b } :: t)
      w.nextComponent ({ builder := b' } :: t)
      w'.nextComponent := by
  have hflat : s.prepare b = pure (b, []) →
      Attaches (s.linksFrom b b w.nextComponent b' w'.nextComponent) B
        ({ builder := b } :: t) w.nextComponent ({ builder := b' } :: t)
        w'.nextComponent →
      LeadsPast (s.Reaches b w) (s.links b w) B ({ builder := b } :: t)
        w.nextComponent ({ builder := b' } :: t)
        w'.nextComponent := by
    intro hp hattached
    have hprepare : Yields (s.prepare b) w (b, []) w := by
      rw [hp]
      exact yields_pure.2 ⟨rfl, rfl⟩
    rw [links_of_yields hprepare h]
    exact LeadsPast.congr hattached fun _ _ => iff_false_intro (not_reaches hp)
  match s with
  | .channel plan => exact hflat rfl (turns_channel hb h)
  | .endpoint plan sides => exact turns_endpoint hb hf h
  | .wireTap plan d => exact turns_wireTap hf h
  | .intercept plan => exact hflat rfl (turns_intercept h)
  | .route plan mappings => exact turns_route hf h
  | .routeToRecipients plan recipients => exact turns_routeToRecipients hf h
  | .publishSubscribe plan subscribers => exact turns_publishSubscribe hb hf h
  | .scatterGather plan (.recipients list recipients) =>
      exact turns_scatterRecipients hf h
  | .scatterGather plan (.publish fan subscribers) =>
      exact turns_scatterPublish hb hf h
  | .withId id =>
      refine hflat rfl ?_
      rw [assemble, Builder.yields_guarded, Builder.withId] at h
      split at h
      · obtain ⟨rfl, rfl⟩ := yields_pure.1 h
        exact Leads.refl _ _
      · simp only [yields_bind, yields_updateClaims, yields_pure] at h
        obtain ⟨_, _, ⟨claims, -, rfl⟩, rfl, rfl⟩ := h
        exact Leads.work (.idle rfl rfl (Nat.le_refl _))
  | .withSession session =>
      refine hflat rfl ?_
      rw [assemble, Builder.yields_guarded, Builder.withSession] at h
      split at h
      · obtain ⟨rfl, rfl⟩ := yields_pure.1 h
        exact Leads.refl _ _
      · simp only [yields_bind, yields_transferClaims, yields_pure] at h
        obtain ⟨_, _, ⟨⟨claims, -, rfl⟩, -⟩, rfl, rfl⟩ := h
        exact Leads.work (.idle rfl rfl (Nat.le_refl _))
  | .fresh => cases hfresh
  | .faulty cause =>
      rw [assemble, Builder.yields_guarded] at h
      exact absurd h not_yields_throw

/-- A fresh start throws the nested builder away. -/
theorem turns_fresh {d : Desk} {t : List Desk}
    (h : Yields (Step.fresh.assemble b) w b' w') :
    Turn B ({ builder := b } :: d :: t) w.nextComponent
      { desks := { builder := b' } :: d :: t,
        dropped := b.components } w'.nextComponent := by
  obtain ⟨⟨_, _, rfl⟩, hnext, -⟩ := Step.of_yields_fresh h
  rw [hnext]
  exact .fresh rfl rfl

theorem leadsWithin (steps : List Step) (hb : ∀ c ∈ broughtBy steps, B c) :
    LeadsWithin B steps := by
  revert hb
  refine Step.flow_induction
    (P := fun s => (∀ c ∈ s.brought, B c) → ∀ flow ∈ s.flows, LeadsWithin B flow)
    (Q := fun steps => (∀ c ∈ broughtBy steps, B c) → LeadsWithin B steps) ?step
    ?nil ?cons steps
  case step =>
    intro s ih hb flow hm
    refine ih flow hm fun c hc => hb c ?_
    rw [Step.brought_eq]
    exact List.mem_append_right _ (List.mem_flatMap.2 ⟨flow, hm, hc⟩)
  case nil =>
    intro _ b b' d ds w w' hy
    obtain ⟨rfl, rfl⟩ := yields_pure.1 hy
    exact ⟨[], LeadsPast.congr (.here _ _ _ _) fun _ _ => reaches_nil⟩
  case cons =>
    intro s rest hs hrest hb b b' d ds w w' hy
    rw [broughtBy_cons] at hb
    obtain ⟨b₁, w₁, hstep, hy⟩ := of_yields_assembleSteps_cons hy
    have hown : ∀ c ∈ s.brought, B c := fun c hc => hb c (List.mem_append_left _ hc)
    obtain ⟨links, hlater⟩ :=
      hrest (fun c hc => hb c (List.mem_append_right _ hc)) (d := d) (t := ds) hy
    cases hfresh : s.isFresh with
    | false =>
        have hled := (LeadsPast.here b (s :: rest) _ _).trans
          ((Step.turns hown (hs hown) hfresh hstep).trans hlater)
        exact ⟨_, LeadsPast.congr hled fun _ _ => reaches_cons hstep⟩
    | true =>
        obtain rfl := Step.eq_fresh hfresh
        refine ⟨_,
          LeadsPast.congr
            ((LeadsPast.dropped rest (turns_fresh hstep)).trans hlater) fun _ _ =>
              ?_⟩
        exact (reaches_cons hstep).trans
          (or_congr_right (or_iff_right (Step.not_reaches rfl)))

/-- Whatever a call of a builder does is a series of turns, past all the
builders nested in it, and what it attaches to the flow of the builder are the
links of the call. -/
theorem Step.call_turns {s : Step} (hb : ∀ c ∈ s.brought, B c)
    (hfresh : s.isFresh = false) (h : Yields (s.assemble b) w b' w') :
    LeadsPast (s.Reaches b w) (s.links b w) B [{ builder := b }] w.nextComponent
      [{ builder := b' }]
      w'.nextComponent := by
  refine Step.turns hb (fun flow hm => leadsWithin flow fun c hc => hb c ?_)
    hfresh h
  rw [Step.brought_eq]
  exact List.mem_append_right _ (List.mem_flatMap.2 ⟨flow, hm, hc⟩)

end FlowAssembly
