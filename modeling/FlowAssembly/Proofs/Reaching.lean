import FlowAssembly.Proofs.Histories

/-!
# Builders that are reached

A builder that is nested in a step is reached by turns, whether or not the
step answers in the end: the flows are prepared, those before its own run as
branches, its own branch starts, and what is left is the same one level
deeper. So whatever holds all along a run holds at every builder that a call
reaches, also when the call fails behind it.
-/

namespace FlowAssembly

open Assembly

variable {B : Channel → Prop} {b b₁ b' : Builder}
  {flows : List (Channel × List Step)} {steps left : List Step} {t : List Desk}
  {w w₁ w' : Workshop}

/-- The flows can start from the desk: at channels that lie ready for them in
order, or at copies of one channel. -/
inductive Desk.Serves (B : Channel → Prop) (d : Desk)
    (flows : List (Channel × List Step)) : Prop
  | ready {rest : List Channel} : d.channels = flows.map Prod.fst ++ rest →
    (∀ flow ∈ flows, flow.1.subscriber = none ∨ B flow.1) → Serves B d flows
  | copies {c : Channel} {subscribers : List (List Step)} :
      flows = subscribers.map (fun steps => (c, steps)) → d.Lends B c →
      Serves B d flows

/-- Turns lead from one pile of desks to another, whatever they pass. -/
def Passes (B : Channel → Prop) (ds : List Desk) (n : Nat) (ds' : List Desk)
    (n' : Nat) : Prop :=
  ∃ history, Turns B ds n history ds' n'

theorem LeadsPast.passes {reached : List Step → Builder → Prop} {links : List Link}
    {ds ds' : List Desk} {n n' : Nat} (h : LeadsPast reached links B ds n ds' n') :
    Passes B ds n ds' n' :=
  ⟨h.choose, h.choose_spec.1⟩

theorem LeadsWithin.passes {d : Desk} (h : LeadsWithin B steps)
    (hy : Yields (assembleSteps b steps) w b' w') :
    Passes B ({ builder := b } :: d :: t) w.nextComponent
      ({ builder := b' } :: d :: t) w'.nextComponent := by
  obtain ⟨links, hled⟩ := h hy
  exact LeadsPast.passes hled

theorem Passes.trans {ds ds₁ ds' : List Desk} {n n₁ n' : Nat}
    (h : Passes B ds n ds₁ n₁) (h' : Passes B ds₁ n₁ ds' n') :
    Passes B ds n ds' n' := by
  obtain ⟨history, ht⟩ := h
  obtain ⟨history', ht'⟩ := h'
  exact ⟨_, ht.trans ht'⟩

/-- Preparing the flows of a step is a series of turns, behind which they can
start. -/
theorem Step.passes_prepare {s : Step} (hb : ∀ c ∈ s.ownBrought, B c)
    (h : Yields (s.prepare b) w (b₁, flows) w₁) :
    ∃ channels,
      Passes B ({ builder := b } :: t) w.nextComponent
        ({ builder := b₁, channels } :: t) w₁.nextComponent ∧
      Desk.Serves B { builder := b₁, channels } flows := by
  match s with
  | .endpoint plan sides =>
      simp only [prepare, yields_bind, yields_pure] at h
      obtain ⟨handler, w₂, hm, seeds, w₃, hs, input, w₄, hi, heq, rfl⟩ := h
      cases heq
      obtain ⟨hmade, hcall, hlen⟩ := leads_makeSides (B := B) (t := t)
        (d := { builder := b })
        (fun side hside c hc => hb c (List.mem_flatMap.2 ⟨side, hside, hc⟩))
        (yieldsAll_of_mapM hs)
      obtain ⟨hinput, -⟩ := leads_resolveInput (B := B) (t := t)
        (d := { builder := b, channels := seeds }) hi
      have hchannels : seeds ++ input.made.toList =
          (seeds.zip (sides.map Prod.snd)).map Prod.fst ++ input.made.toList := by
        rw [List.map_fst_zip (by simp [hlen])]
      have hready :=
        ((Leads.idle (plan.handler.make_leaves.of_yields hm).components).trans
          hmade).trans hinput
      exact ⟨_, hready.passes, .ready hchannels fun flow hf =>
        (hcall flow.1 (List.of_mem_zip hf).1).subscriber⟩
  | .wireTap plan destination =>
      simp only [prepare, yields_bind, yields_pure] at h
      obtain ⟨opening, w₂, ho, ⟨b₂, c⟩, w₃, ht, heq, rfl⟩ := h
      cases heq
      obtain ⟨hmade, hseeds⟩ :=
        Destination.leads_openUp (B := B) (t := t) (d := { builder := b }) ho
      have htap := leads_tapPoint (B := B) (t := t)
        (d :=
          { builder := b,
            channels := (seededFlows [opening] [destination]).map Prod.fst }) ht
      exact ⟨_, (hmade.trans htap).passes,
        .ready (List.append_nil _).symm fun flow hm => .inl (hseeds flow hm)⟩
  | .route plan mappings =>
      simp only [prepare, yields_bind, yields_pure] at h
      obtain ⟨parts, _, hm, heq, rfl⟩ := h
      cases heq
      obtain ⟨hmade, hseeds⟩ :=
        leads_makeRouter (B := B) (t := t) (d := { builder := b }) hm
      exact ⟨_, hmade.passes, .ready (List.append_nil _).symm fun flow hm =>
        .inl (hseeds flow hm)⟩
  | .routeToRecipients plan recipients =>
      simp only [prepare, yields_bind, yields_pure] at h
      obtain ⟨parts, _, hm, heq, rfl⟩ := h
      cases heq
      obtain ⟨hmade, hseeds⟩ :=
        leads_makeRecipients (B := B) (t := t) (d := { builder := b }) hm
      exact ⟨_, hmade.passes, .ready (List.append_nil _).symm fun flow hm =>
        .inl (hseeds flow hm)⟩
  | .publishSubscribe plan subscribers =>
      simp only [prepare, yields_bind, yields_pure] at h
      obtain ⟨given, w₂, hm, c, w₃, hc, b₂, w₄, ho, heq, rfl⟩ := h
      cases heq
      obtain ⟨hgiven, hcall⟩ :=
        FanOutPlan.leads_make (B := B) (t := t) (d := { builder := b }) hb hm
      obtain ⟨channels, hchannels, hmade, hcall⟩ := leads_fanOutChannel (B := B)
        (t := t) (d := { builder := b, channels := given.toList }) hcall hc
        (.of_eq (List.append_nil _).symm)
      obtain rfl := List.perm_singleton.1 hchannels
      exact ⟨_, ((hgiven.trans hmade).andThen (leads_openFanOut hcall ho)).passes,
        .copies rfl (hcall.lends _ [])⟩
  | .scatterGather plan (.recipients list recipients) =>
      simp only [prepare, yields_bind, yields_implicitChannel, yields_pure] at h
      obtain ⟨release, w₂, hr, parts, w₃, hm, _, _, ⟨rfl, rfl⟩, _, _, ⟨rfl, rfl⟩,
        heq, rfl⟩ := h
      cases heq
      obtain ⟨hmade, hseeds⟩ :=
        leads_makeRecipients (B := B) (t := t) (d := { builder := b }) hm
      have hready :=
        (Leads.idle (plan.gather.release.make_leaves.of_yields hr).components).trans
        hmade
      have hgather :=
        hready.trans (.made (c := ⟨⟨_⟩, none, .direct, [], true, none⟩) rfl)
      have hscatter :=
        hgather.trans (.made (c := ⟨⟨_⟩, none, .direct, [], true, none⟩) rfl)
      exact ⟨_, hscatter.passes,
        .ready (by rw [List.append_assoc]; rfl) fun flow hm =>
          .inl (hseeds flow hm)⟩
  | .scatterGather plan (.publish fan subscribers) =>
      simp only [prepare, yields_bind, yields_implicitChannel, yields_pure] at h
      obtain ⟨release, w₂, hr, given, w₃, hm, _, _, ⟨rfl, rfl⟩, c, w₄, hc,
        heq, rfl⟩ := h
      cases heq
      obtain ⟨hgiven, hcall⟩ :=
        FanOutPlan.leads_make (B := B) (t := t) (d := { builder := b }) hb hm
      have hgather :=
        ((Leads.idle
            (plan.gather.release.make_leaves.of_yields hr).components).trans
          hgiven).trans (.made (c := ⟨⟨_⟩, none, .direct, [], true, none⟩) rfl)
      obtain ⟨channels, hchannels, hmade, hcall⟩ := leads_fanOutChannel (B := B)
        (t := t) (d := { builder := b, channels := given.toList ++ [_] }) hcall hc
        (.refl _)
      refine ⟨channels, (hgather.trans hmade).passes,
        .copies rfl (hcall.imp_right fun hmade => ⟨hmade, ?_⟩)⟩
      exact List.mem_append_right _ (List.mem_append_left _
        (List.mem_map_of_mem (hchannels.symm.subset List.mem_cons_self)))
  | .channel _ | .intercept _ | .withId _ | .withSession _ | .fresh | .faulty _ =>
      simp only [prepare, yields_pure] at h
      obtain ⟨heq, rfl⟩ := h
      cases heq
      exact ⟨[], ⟨[], .refl _ _⟩, .ready rfl fun _ hm => absurd hm List.not_mem_nil⟩

theorem Turn.passes {ds : List Desk} {m : Moment} {n n' : Nat}
    (h : Turn B ds n m n') : Passes B ds n m.desks n' :=
  ⟨[m], .step h (.refl _ _)⟩

/-- The flows before a flow run, and its own branch starts. -/
theorem Desk.Serves.passes {before after : List (Channel × List Step)}
    {flow : Channel × List Step} {branches : List Branch} {channels : List Channel}
    (h : Desk.Serves B { builder := b, channels } (before ++ flow :: after))
    (hf : ∀ flow ∈ before, LeadsWithin B flow.2)
    (hy : YieldsAll b.runBranch w before branches w') :
    ∃ d : Desk,
      Passes B ({ builder := b, channels } :: t) w.nextComponent
        ({ builder := b.branch flow.1 } :: d :: t) w'.nextComponent := by
  cases h with
  | @ready rest hc hs =>
      have hchannels : channels = before.map Prod.fst ++
            ((flow :: after).map Prod.fst ++ rest) := by
        rw [← List.append_assoc, ← List.map_append]
        exact hc
      have hrun := leads_runReady (t := t) (d := { builder := b, channels }) hf
        (fun flow hm => hs flow (List.mem_append_left _ hm)) rfl hchannels hy
      have hoffers :
          Offers B { builder := b, branches,
                     channels := (flow :: after).map Prod.fst ++ rest } flow.1
            (after.map Prod.fst ++ rest) :=
        .ready (.refl _) (hs flow (by simp))
      exact ⟨_, hrun.passes.trans (Turn.push hoffers).passes⟩
  | @copies c subscribers hflows hl =>
      obtain ⟨earlier, rest, rfl, rfl, hrest⟩ :=
        List.map_eq_append_iff.1 hflows.symm
      obtain ⟨own, later, rfl, rfl, -⟩ := List.map_eq_cons_iff.1 hrest
      have hrun := leads_runCopies (t := t) (d := { builder := b, channels })
        (fun steps hm => hf (c, steps) (List.mem_map_of_mem hm)) hl rfl hy
      exact ⟨_, hrun.passes.trans (Turn.push (.copy (hl.branches branches))).passes⟩

/-- A builder that is nested in a step is reached, if those in each of its
flows are. -/
theorem Step.passes {s : Step} {before after : List (Channel × List Step)}
    {flow : Channel × List Step} {branches : List Branch} {w₂ : Workshop}
    (hb : ∀ c ∈ s.brought, B c)
    (hp : Yields (s.prepare b) w (b₁, before ++ flow :: after) w₁)
    (hy : YieldsAll b₁.runBranch w₁ before branches w₂) :
    (∀ c ∈ broughtBy flow.2, B c) ∧
    ∃ d : Desk,
      Passes B ({ builder := b } :: t) w.nextComponent
        ({ builder := b₁.branch flow.1 } :: d :: t) w₂.nextComponent := by
  rw [Step.brought_eq] at hb
  have hflow : ∀ flow' ∈ before ++ flow :: after, ∀ c ∈ broughtBy flow'.2, B c :=
    fun flow' hm c hc =>
      hb c
        (List.mem_append_right _ (List.mem_flatMap.2 ⟨_, Step.flow_mem hp hm, hc⟩))
  obtain ⟨channels, hprepare, hserves⟩ :=
    Step.passes_prepare (t := t) (fun c hc => hb c (List.mem_append_left _ hc)) hp
  obtain ⟨d, hpasses⟩ := hserves.passes (t := t)
    (fun flow' hm => leadsWithin flow'.2 (hflow flow' (List.mem_append_left _ hm)))
    hy
  exact ⟨hflow flow (List.mem_append_right _ List.mem_cons_self), d,
    hprepare.trans hpasses⟩

/-- A step of a nested flow that answers leads on to the next. -/
theorem Step.passes_answer {s : Step} {d : Desk} (hb : ∀ c ∈ s.brought, B c)
    (hy : Yields (s.assemble b) w b' w') :
    Passes B ({ builder := b } :: d :: t) w.nextComponent
      ({ builder := b' } :: d :: t) w'.nextComponent := by
  have hone : Yields (assembleSteps b [s]) w b' w' := by
    rw [assembleSteps, yields_bind]
    exact ⟨b', w', hy, yields_pure.2 ⟨rfl, rfl⟩⟩
  refine LeadsWithin.passes (leadsWithin [s] fun c hc => hb c ?_) hone
  rw [broughtBy_cons] at hc
  exact (List.mem_append.1 hc).resolve_right List.not_mem_nil

theorem Reaches.passes (h : Reaches steps b w left b')
    (hb : ∀ c ∈ broughtBy steps, B c) (d : Desk) (t : List Desk) :
    ∃ ds n',
      Passes B ({ builder := b } :: d :: t) w.nextComponent
        ({ builder := b' } :: ds) n' := by
  induction h generalizing d t with
  | here => exact ⟨d :: t, _, [], .refl _ _⟩
  | @later s steps left b b₁ b' w w₁ hy _ ih =>
      rw [broughtBy_cons] at hb
      obtain ⟨ds, n', hpasses⟩ :=
        ih (fun c hc => hb c (List.mem_append_right _ hc)) d t
      exact ⟨ds, n',
        (Step.passes_answer (fun c hc => hb c (List.mem_append_left _ hc)) hy).trans
          hpasses⟩
  | within hp hys _ ih =>
      rw [broughtBy_cons] at hb
      obtain ⟨hflow, d', hpasses⟩ := Step.passes (t := d :: t)
        (fun c hc => hb c (List.mem_append_left _ hc)) hp hys
      obtain ⟨ds, n', hrest⟩ := ih hflow d' (d :: t)
      exact ⟨ds, n', hpasses.trans hrest⟩

/-- A builder that a call reaches is reached by turns from the builder that is
called. -/
theorem Step.Reaches.passes {s : Step} (h : s.Reaches b w left b')
    (hb : ∀ c ∈ s.brought, B c) :
    ∃ ds n',
      Passes B [{ builder := b }] w.nextComponent ({ builder := b' } :: ds) n' := by
  obtain ⟨b₁, flows, w₁, hp, before, flow, after, branches, w₂, rfl, hys, hr⟩ := h
  obtain ⟨hflow, d, hpasses⟩ := Step.passes (t := []) hb hp hys
  obtain ⟨ds, n', hrest⟩ := hr.passes hflow d []
  exact ⟨ds, n', hpasses.trans hrest⟩

/-- What is kept all along a run holds at every builder that the next call
reaches, whether or not that call answers. -/
theorem Underway.kept_reached {usable : Channel → Prop} {program : List Step}
    {past : List Moment} {s : Step}
    {I : (Channel → Prop) → List Moment → List Desk → Nat → Prop}
    (h : Underway usable program b w past) (hI : Kept usable I)
    (hb : ∀ c ∈ s.brought, usable c ∧ b.Knows w c) (hr : s.Reaches b w left b') :
    ∃ history ds n',
      I (· ∈ s.brought) (past ++ history) ({ builder := b' } :: ds) n' := by
  obtain ⟨ds, n', history, ht⟩ := hr.passes (B := (· ∈ s.brought)) fun c hc => hc
  exact ⟨history, ds, n', ht.induct hI.turn (hI.bring (h.kept hI) hb)⟩

end FlowAssembly
