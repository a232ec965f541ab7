import FlowAssembly.Proofs.Takers

/-!
# What a call leaves to be taken

A call that does not use a channel itself leaves it as many takers as it had,
and its branches bring theirs along (`Step.takers_of_stages`). A flow that
starts elsewhere and is given the channel nowhere takes nothing from it, at
whatever depth, and one that starts at the channel takes it once, whether it
reads it at once, late, through a bridge, or not at all. Only a flow that is
thrown away for a fresh start takes nothing (`takers_runBranch`).
-/

namespace FlowAssembly

open Assembly

variable {B : Channel → Prop} {s : Step} {b b' : Builder} {branches : List Branch}
  {st : Stage} {d : Desk} {ds : List Desk} {k : ComponentKey}
  {w w₁ w₂ w₃ w' : Workshop} {n : Nat}

theorem Tidy.neat (h : Tidy (fun _ => false) B ({ builder := b } :: ds) n) :
    b.Neat n := by
  refine ⟨?_, h.given_builder⟩
  have hclear := h.clear
  rw [stock_cons, Tidy.components_plain] at hclear
  exact (Clear.append_iff.1 hclear).1

theorem Tidy.spares (h : Tidy (fun _ => false) B ({ builder := b } :: ds) n)
    {c : Channel} (hc : B c) :
    b.Spares c.key ∧ c.key.number < n := by
  obtain ⟨-, hlt, hall⟩ := h.brought c hc
  refine ⟨fun x hx hkey => ?_, hlt⟩
  rw [← Component.marked_false]
  exact hall x (Tidy.subset_stock b ds hx) hkey

/-! ## The channels that flows start at -/

/-- Each flow of a call starts at a channel that the caller brings for it, or
that was made for it. -/
theorem Step.seeds_of_stage (h : Yields (s.stage b) w st w₁) :
    ∀ flow ∈ st.flows, flow.1 ∈ s.ownBrought ∨ w.nextComponent ≤ flow.1.key.number ∧
      flow.1.key.number < w₁.nextComponent := by
  cases s with
  | endpoint plan sides =>
      simp only [stage, yields_bind, yields_pure, Builder.yields_ensureOpen] at h
      obtain ⟨handler, w₂, hm, seeds, w₃, hs, _, _, ⟨-, rfl⟩, input, w₄, hi,
        _, _, hp, rfl, rfl⟩ := h
      obtain rfl := eq_of_yields_checkPoller hp
      have hle₂ := (plan.handler.make_leaves.of_yields hm).components
      have hle₄ := ((resolveInput_leaves _ _).of_yields hi).components
      rintro ⟨seed, steps⟩ hflow
      rcases brought_or_made_of_sides (yieldsAll_of_mapM hs) seed
        (List.of_mem_zip hflow).1 with hc | ⟨hge, hlt⟩
      · exact .inl hc
      · exact .inr ⟨Nat.le_trans hle₂ hge, Nat.lt_of_lt_of_le hlt hle₄⟩
  | wireTap plan destination =>
      simp only [stage, yields_bind, yields_pure] at h
      obtain ⟨opening, w₂, ho, selector, _, hp, ⟨b₁, c⟩, w₃, ht, rfl, rfl⟩ := h
      obtain rfl := eq_of_yields_parseOptional hp
      have hle := ((b.tapPoint_leaves _).of_yields ht).components
      obtain ⟨-, hspent⟩ := destination.of_yields_openUp ho
      intro flow hflow
      obtain ⟨hge, hlt⟩ := (Workshop.made_of_spent hspent).2 _
        (List.mem_map_of_mem (f := fun flow : Channel × List Step => flow.1.key)
          hflow)
      exact .inr ⟨hge, Nat.lt_of_lt_of_le hlt hle⟩
  | route | routeToRecipients =>
      intro flow hflow
      exact .inr ((seeded_of_stage rfl h).2.made flow hflow)
  | publishSubscribe plan subscribers =>
      simp only [stage, yields_bind, yields_pure] at h
      obtain ⟨given, w₂, hg, c, w₃, hc, b₁, _, ho, rfl, rfl⟩ := h
      have hle := ((b.openFanOut_adds c).of_yields ho).components
      intro flow hflow
      obtain ⟨steps, -, rfl⟩ := List.mem_map.1 hflow
      rcases plan.brought_or_made hg (Nat.le_refl _) hc with hmem | ⟨hge, hlt, -⟩
      · exact .inl hmem
      · exact .inr ⟨hge, Nat.lt_of_lt_of_le hlt hle⟩
  | scatterGather plan scatter =>
      cases scatter with
      | recipients list members =>
          simp only [stage, Scatter.make, Scatter.seed, yields_bind, yields_pure,
            yields_ensure, yields_implicitChannel, Builder.yields_ensureOpen] at h
          obtain ⟨release, w₂, hr, _, _, ⟨parts, w₃, hm, rfl, rfl⟩, _, _, ⟨-, rfl⟩,
            _, _, ⟨-, rfl⟩, gather, _, ⟨rfl, rfl⟩, _, _,
            ⟨channel, _, ⟨rfl, rfl⟩, rfl, rfl⟩, rfl, rfl⟩ := h
          have hle := (plan.gather.release.make_leaves.of_yields hr).components
          intro flow hflow
          obtain ⟨hge, hlt⟩ :=
            (Workshop.made_of_spent (spent_makeRecipients hm).2).2 _
            (List.mem_map_of_mem (f := fun flow : Channel × List Step => flow.1.key)
              hflow)
          exact .inr
            ⟨Nat.le_trans hle hge, Nat.lt_succ_of_lt (Nat.lt_succ_of_lt hlt)⟩
      | publish fan subscribers =>
          simp only [stage, Scatter.make, Scatter.seed, yields_bind, yields_pure,
            yields_ensure, yields_implicitChannel, Builder.yields_ensureOpen] at h
          obtain ⟨release, w₂, hr, _, _, ⟨given, w₃, hm, rfl, rfl⟩, _, _, ⟨-, rfl⟩,
            _, _, ⟨-, rfl⟩, gather, _, ⟨rfl, rfl⟩, _, _, ⟨channel, _, hc, rfl, rfl⟩,
            rfl, rfl⟩ := h
          have hle := (plan.gather.release.make_leaves.of_yields hr).components
          intro flow hflow
          obtain ⟨steps, -, rfl⟩ := List.mem_map.1 hflow
          rcases fan.brought_or_made hm (Nat.le_succ _) hc with hmem | ⟨hge, hlt, -⟩
          · exact .inl hmem
          · exact .inr ⟨Nat.le_trans hle hge, hlt⟩
  | channel plan =>
      simp only [stage, yields_bind, yields_pure] at h
      obtain ⟨source, _, -, rfl, -⟩ := h
      exact fun flow hflow => absurd hflow List.not_mem_nil
  | intercept plan =>
      simp only [stage, yields_bind, yields_pure] at h
      obtain ⟨interceptor, _, -, point, _, -, rfl, -⟩ := h
      exact fun flow hflow => absurd hflow List.not_mem_nil
  | withId | withSession | fresh =>
      obtain ⟨rfl, -⟩ := yields_pure.1 h
      exact fun flow hflow => absurd hflow List.not_mem_nil
  | faulty cause => exact absurd h not_yields_throw

theorem Step.next_le_of_stage (h : Yields (s.stage b) w st w₁) :
    w.nextComponent ≤ w₁.nextComponent :=
  ((s.stage_adds b).of_yields h).components

section

variable (htidy : Tidy (fun _ => false) B ({ builder := b } :: ds) w.nextComponent)
  (hb : ∀ c ∈ s.brought, B c)
include htidy hb

theorem Step.spares_brought :
    ∀ k ∈ s.brought.map Channel.key, b.Spares k ∧ k.number < w.nextComponent := by
  intro k hk
  obtain ⟨c, hc, rfl⟩ := List.mem_map.1 hk
  exact htidy.spares (hb c hc)

/-- What the flows of a call are given was there when the first of them is
assembled, and is no worker of the flow. -/
theorem Step.given_of_stage (h : Yields (s.stage b) w st w₁) :
    ∀ k ∈ st.flows.flatMap Builder.givenKeys, b.Spares k ∧
      k.number < w₁.nextComponent := by
  have hle := Step.next_le_of_stage h
  have hknown : ∀ k ∈ s.brought.map Channel.key, b.Spares k ∧
      k.number < w₁.nextComponent :=
    fun k hk =>
      (Step.spares_brought htidy hb k hk).imp_right fun hlt =>
        Nat.lt_of_lt_of_le hlt hle
  intro k hk
  obtain ⟨flow, hflow, hk⟩ := List.mem_flatMap.1 hk
  rcases List.mem_cons.1 hk with rfl | hk
  · rcases Step.seeds_of_stage h flow hflow with hc | ⟨hge, hlt⟩
    · exact hknown _ (List.mem_map_of_mem (List.mem_append_left _ hc))
    · exact ⟨htidy.neat.spares_of_new hge, hlt⟩
  · obtain ⟨c, hc, rfl⟩ := List.mem_map.1 hk
    refine hknown _ (List.mem_map_of_mem ?_)
    rw [brought_eq]
    exact List.mem_append_right _
      (List.mem_flatMap.2 ⟨flow.2, flow_mem_of_stage h hflow, hc⟩)

/-- What the flows of a call hold is older than what comes behind them. -/
theorem Step.lt_of_branches (hst : Yields (s.stage b) w st w₁)
    (hbr : YieldsAll st.builder.runBranch w₁ st.flows branches w₂) :
    w₁.nextComponent ≤ w₂.nextComponent ∧
    ∀ x ∈ branches.flatMap fun br => br.registry.components,
      x.key.number < w₂.nextComponent := by
  obtain ⟨hle, hstems⟩ := Builder.stems_of_runBranches
    (fun k hk => (given_of_stage htidy hb hst k hk).2) hbr
  exact ⟨hle, fun x hx => (hstems x hx).2⟩

end

/-! ## Kinds of calls -/

/-- An endpoint is wired behind its sides, and nothing that works shares its
key there. -/
theorem Step.wired_of_stages {plan : EndpointPlan}
    {sides : List (ChannelPlan × List Step)}
    (htidy : Tidy (fun _ => false) B ({ builder := b } :: ds) w.nextComponent)
    (hb : ∀ c ∈ (Step.endpoint plan sides).brought, B c)
    (hst : Yields ((Step.endpoint plan sides).stage b) w st w₁)
    (hbr : YieldsAll st.builder.runBranch w₁ st.flows branches w₂)
    (hclose : Yields (st.close branches) w₂ b' w₃) :
    ∃ (handler : Handler) (w₀ : Workshop) (input : ResolvedInput)
        (closed : List Branch) (e : Endpoint), w.nextComponent ≤ w₀.nextComponent ∧
      Yields (resolveInput b.cursor.channel handler) w₀ input w₁ ∧
      e.input = input.target ∧ b' = b.wired input (closed.map Branch.registry) e ∧
      Clear (fun _ => false)
        (b.components ++ (closed.map Branch.registry).flatMap Registry.components ++
          Builder.madeChannels input ++ [.endpoint e]) ∧
      ∀ k, readers k (closed.flatMap fun br => br.registry.components) =
          branchTakers k branches := by
  have hgiven := Step.given_of_stage htidy hb hst
  have hneat := htidy.neat
  simp only [stage, yields_bind, yields_pure, Builder.yields_ensureOpen] at hst
  obtain ⟨handler, w₄, hm, seeds, _, hs, _, w₅, ⟨-, rfl⟩, input, _, hi, _, _,
    hp, rfl, rfl⟩ := hst
  obtain rfl := eq_of_yields_checkPoller hp
  have hle₄ := (plan.handler.make_leaves.of_yields hm).components
  have hle₅ : w₄.nextComponent ≤ w₅.nextComponent :=
    (supplied_of_yieldsAll (fun side => side.1.make_leaves)
      (yieldsAll_of_mapM hs)).components
  have hle₁ := ((resolveInput_leaves _ _).of_yields hi).components
  obtain ⟨closed, w₆, hopen, hwire⟩ := yields_bind.1 hclose
  have hopen := yieldsAll_of_mapM hopen
  obtain ⟨e, rfl, hfresh, -, hinput, -⟩ := Builder.wired_of_yields hwire
  have hbefore : ∀ k ∈ (seeds.zip (sides.map Prod.snd)).flatMap Builder.givenKeys,
      k.number < w₁.nextComponent :=
    fun k hk => (hgiven k hk).2
  have hbeside :=
    (hneat.mono (Nat.le_trans hle₄ (Nat.le_trans hle₅ hle₁))).beside hgiven hbr
  obtain ⟨hclear, hfree, hreaders⟩ := hbeside.leaveOpen hopen
  obtain ⟨links, hclosed, hlinks, -⟩ :=
    takers_leaveOpen (fun x hx => hbeside.free x (List.mem_append_right _ hx)) hopen
  obtain ⟨hle₂, -⟩ := Builder.stems_of_runBranches hbefore hbr
  -- The channel that was made for the endpoint is older than all that works
  -- in the sides, and newer than the flow.
  have hmade := Builder.mem_madeChannels hi
  have hworkers : ∀ x ∈ closed.flatMap fun br => br.registry.components,
      x.isWorker = true →
      w₁.nextComponent ≤ x.key.number := by
    intro x hx hworker
    rcases List.mem_append.1 (hclosed.subset hx) with hx | hx
    · exact Builder.made_of_runBranches hbefore hbr x hx hworker
    · exact Nat.le_trans hle₂ (hlinks.mem hx).1
  have hparts :
      Clear (fun _ =>
        false) (b.components ++ (closed.flatMap fun br => br.registry.components) ++
          Builder.madeChannels input) := by
    refine hclear.behind (n := w₆.nextComponent) (Builder.clear_madeChannels input)
      hfree fun y hy =>
        .inr ⟨(hmade y hy).1,
          fun x hx hkey => Bool.eq_false_iff.2 fun hworker => ?_⟩
    obtain ⟨-, hge, hlt⟩ := hmade y hy
    rcases List.mem_append.1 hx with hx | hx
    · have hold := hneat.given x hx
      rw [hkey] at hold
      omega
    · have hnew := hworkers x hx hworker
      rw [hkey] at hnew
      omega
  refine ⟨handler, w₅, input, closed, e, Nat.le_trans hle₄ hle₅, hi, hinput,
    rfl, ?_, hreaders⟩
  rw [List.flatMap_map]
  refine hparts.numbered (n := w₆.nextComponent) (fun x hx => ?_) (.one hfresh.key)
  rcases List.mem_append.1 hx with hx | hx
  · exact hfree x hx
  · exact Nat.lt_of_lt_of_le (hmade x hx).2.2 (Nat.le_trans hle₂ hlinks.next_le)

theorem Step.takers_endpoint {plan : EndpointPlan}
    {sides : List (ChannelPlan × List Step)}
    (htidy : Tidy (fun _ => false) B ({ builder := b } :: ds) w.nextComponent)
    (hb : ∀ c ∈ (Step.endpoint plan sides).brought, B c)
    (hst : Yields ((Step.endpoint plan sides).stage b) w st w₁)
    (hbr : YieldsAll st.builder.runBranch w₁ st.flows branches w₂)
    (hclose : Yields (st.close branches) w₂ b' w₃) :
    ∀ k, k.Outside w.nextComponent w₁.nextComponent →
      b'.takers k = b.takers k + branchTakers k branches := by
  obtain ⟨handler, w₀, input, closed, e, hle, hi, hinput, rfl, hclear, hreaders⟩ :=
    wired_of_stages htidy hb hst hbr hclose
  intro k hk
  have hreads := Builder.reads_resolved (hk.sub hle (Nat.le_refl _)) hi hinput
  rw [(Builder.takers_wired hclear).2 k hreads, List.flatMap_map, hreaders]

theorem Step.takers_wireTap {plan : TapPlan} {destination : Destination}
    (htidy : Tidy (fun _ => false) B ({ builder := b } :: ds) w.nextComponent)
    (hb : ∀ c ∈ (Step.wireTap plan destination).brought, B c)
    (hst : Yields ((Step.wireTap plan destination).stage b) w st w₁)
    (hbr : YieldsAll st.builder.runBranch w₁ st.flows branches w₂)
    (hclose : Yields (st.close branches) w₂ b' w₃) :
    ∀ k, k.Outside w.nextComponent w₁.nextComponent →
      b'.takers k = b.takers k + branchTakers k branches := by
  have hgiven := Step.given_of_stage htidy hb hst
  simp only [stage, yields_bind, yields_pure] at hst
  obtain ⟨opening, w₄, ho, selector, _, hp, ⟨b₁, c⟩, w₅, ht, rfl, rfl⟩ := hst
  obtain rfl := eq_of_yields_parseOptional hp
  have hle := (destination.openUp_leaves.of_yields ho).components
  obtain ⟨hneat, hspares, htakers⟩ :=
    Builder.takers_tapPoint (htidy.neat.mono hle) ht
  have hbeside :=
    hneat.beside (fun k hk => ⟨hspares k (hgiven k hk).1, (hgiven k hk).2⟩) hbr
  obtain ⟨closed, w₆, hopen, hheld⟩ := yields_bind.1 hclose
  obtain ⟨rfl, -⟩ := yields_pure.1 hheld
  obtain ⟨hclear, hfree, hreaders⟩ := hbeside.leaveOpen (yieldsAll_of_mapM hopen)
  intro k hk
  have hheld := (Builder.takers_holding hclear hfree).2 k
  rw [hreaders, htakers k (hk.sub hle (Nat.le_refl _))] at hheld
  exact hheld

/-- The subscribers of a fan-out are closed and taken over by the builder once
it stands on the channel. -/
structure Stage.FansOut (st : Stage) (b : Builder) (c : Channel)
    (branches closed : List Branch) (w₂ : Workshop) (b' : Builder) (w₃ : Workshop) :
    Prop where
  current : st.builder.currentKey? = some c.key
  closes : YieldsAll (fun br => br.leaveOpen st.builder) w₂ branches closed w₃
  absorbs : b' = st.builder.absorb closed
  clear : Clear (fun _ => false) (st.builder.components ++ closed.flatMap fun br =>
    br.registry.components)
  given : ∀ x ∈ st.builder.components ++ closed.flatMap fun br =>
    br.registry.components, x.key.number < w₃.nextComponent
  readers :
    List.Forall₂ (fun br br' =>
      ∀ k, readers k br'.registry.components = branchTakers k [br]) branches closed

theorem Step.fansOut_of_stages {plan : FanOutPlan} {subscribers : List (List Step)}
    (htidy : Tidy (fun _ => false) B ({ builder := b } :: ds) w.nextComponent)
    (hb : ∀ c ∈ (Step.publishSubscribe plan subscribers).brought, B c)
    (hst : Yields ((Step.publishSubscribe plan subscribers).stage b) w st w₁)
    (hbr : YieldsAll st.builder.runBranch w₁ st.flows branches w₂)
    (hclose : Yields (st.close branches) w₂ b' w₃) :
    ∃ c closed, st.flows = subscribers.map (fun steps => (c, steps)) ∧
      (c ∈ plan.brought ∨ w.nextComponent ≤ c.key.number) ∧
      c.key.number < w₁.nextComponent ∧
      st.FansOut b c branches closed w₂ b' w₃ ∧
      ∀ k, k = c.key ∨ k.Outside w.nextComponent w₁.nextComponent →
        st.builder.takers k = b.takers k + if c.key = k ∧ b.currentKey? ≠ some k
          then 1 else 0 := by
  have hspared := Step.spares_brought htidy hb
  have hneat := htidy.neat
  simp only [stage, yields_bind, yields_pure] at hst
  obtain ⟨given, w₄, hg, c, w₅, hc, b₁, _, hopen, rfl, rfl⟩ := hst
  have hle₄ := ((optional_make_leaves plan.channel).of_yields hg).components
  have hle₅ := ((Builder.fanOutChannel_leaves plan given).of_yields hc).components
  have hle₁ : w₅.nextComponent ≤ w₁.nextComponent :=
    ((b.openFanOut_adds c).of_yields hopen).components
  have hle : w.nextComponent ≤ w₅.nextComponent := Nat.le_trans hle₄ hle₅
  have horigin := plan.brought_or_made hg (Nat.le_refl _) hc
  have hbefore :
      ∀ k ∈ (Step.publishSubscribe plan subscribers).brought.map Channel.key,
        b.Spares k ∧ k.number < w₅.nextComponent :=
    fun k hk => (hspared k hk).imp_right fun hlt => Nat.lt_of_lt_of_le hlt hle
  have hknown : b.Spares c.key ∧ c.key.number < w₅.nextComponent := by
    rcases horigin with hmem | ⟨hge, hlt, -⟩
    · exact hbefore _ (List.mem_map_of_mem (List.mem_append_left _ hmem))
    · exact ⟨hneat.spares_of_new hge, hlt⟩
  obtain ⟨hneat₁, hcurrent, hspares, htakers⟩ :=
    Builder.takers_openFanOut (hneat.mono hle) hknown.1 hknown.2 hopen
  have hgiven :
      ∀ k ∈ (subscribers.map fun steps => (c, steps)).flatMap Builder.givenKeys,
        b₁.Spares k ∧ k.number < w₁.nextComponent := by
    intro k hk
    obtain ⟨flow, hflow, hk⟩ := List.mem_flatMap.1 hk
    obtain ⟨steps, hsteps, rfl⟩ := List.mem_map.1 hflow
    have hold : b.Spares k ∧ k.number < w₅.nextComponent := by
      rcases List.mem_cons.1 hk with rfl | hk
      · exact hknown
      · refine hbefore k ?_
        rw [brought_eq, List.map_append]
        refine List.mem_append_right _ ?_
        obtain ⟨c', hc', rfl⟩ := List.mem_map.1 hk
        exact List.mem_map_of_mem (List.mem_flatMap.2 ⟨steps, hsteps, hc'⟩)
    exact ⟨hspares k hold.1 hold.2, Nat.lt_of_lt_of_le hold.2 hle₁⟩
  have hbeside := hneat₁.beside hgiven hbr
  obtain ⟨closed, hcloses, rfl⟩ := Builder.of_yields_finishFanOut hclose
  obtain ⟨hclear, hfree, -⟩ := hbeside.leaveOpen hcloses
  obtain ⟨-, -, -, hreaders⟩ := takers_leaveOpen
    (fun x hx => hbeside.free x (List.mem_append_right _ hx)) hcloses
  refine ⟨c, closed, rfl, horigin.imp_right And.left,
    Nat.lt_of_lt_of_le hknown.2 hle₁,
    ⟨hcurrent, hcloses, rfl, hclear, hfree, hreaders⟩, fun k hk => htakers k ?_⟩
  rcases hk with rfl | hk
  · exact .inl hknown.2
  · exact hk.sub hle (Nat.le_refl _)

/-- What a scatter-gather does behind its flows, and what is known of the
channels that it sends to and gathers on. -/
theorem Step.scatter_of_stage {plan : ScatterGatherPlan} {scatter : Scatter}
    (hst : Yields ((Step.scatterGather plan scatter).stage b) w st w₁) :
    ∃ (release : Release) (scattering : Scattering) (gather : Channel),
      st.builder = b ∧
      (∀ branches,
        st.close branches = b.finishScatterGather plan release { scattering with
          branches } gather) ∧
      (scattering.channel ∈ (Step.scatterGather plan scatter).ownBrought ∨
        w.nextComponent ≤ scattering.channel.key.number ∧
        scattering.channel.key.number < w₁.nextComponent) ∧
      w.nextComponent ≤ gather.key.number ∧
      gather.key.number < w₁.nextComponent := by
  cases scatter with
  | recipients list members =>
      simp only [stage, Scatter.make, Scatter.seed, yields_bind, yields_pure,
        yields_ensure, yields_implicitChannel, Builder.yields_ensureOpen] at hst
      obtain ⟨release, w₄, hr, _, _, ⟨parts, w₅, hm, rfl, rfl⟩, _, _, ⟨-, rfl⟩,
        _, _, ⟨-, rfl⟩, gather, _, ⟨rfl, rfl⟩, _, _,
        ⟨channel, _, ⟨rfl, rfl⟩, rfl, rfl⟩, rfl, rfl⟩ := hst
      have hle₄ := (plan.gather.release.make_leaves.of_yields hr).components
      have hle₅ := ((list.make_leaves members).of_yields hm).components
      exact ⟨release, _, _, rfl, fun _ => rfl,
        .inr ⟨Nat.le_succ_of_le (Nat.le_trans hle₄ hle₅), Nat.lt_succ_self _⟩,
        Nat.le_trans hle₄ hle₅, Nat.lt_succ_of_lt (Nat.lt_succ_self _)⟩
  | publish fan subscribers =>
      simp only [stage, Scatter.make, Scatter.seed, yields_bind, yields_pure,
        yields_ensure, yields_implicitChannel, Builder.yields_ensureOpen] at hst
      obtain ⟨release, w₄, hr, _, _, ⟨given, w₅, hm, rfl, rfl⟩, _, _, ⟨-, rfl⟩,
        _, _, ⟨-, rfl⟩, gather, _, ⟨rfl, rfl⟩, _, _, ⟨channel, _, hc, rfl, rfl⟩,
        rfl, rfl⟩ := hst
      have hle₄ := (plan.gather.release.make_leaves.of_yields hr).components
      have hle₅ := ((optional_make_leaves fan.channel).of_yields hm).components
      have hle₁ :=
        ((Builder.fanOutChannel_leaves fan given).of_yields hc).components
      refine ⟨release, _, _, rfl, fun _ => rfl, ?_, Nat.le_trans hle₄ hle₅,
        Nat.lt_of_lt_of_le (Nat.lt_succ_self _) hle₁⟩
      exact (fan.brought_or_made hm (Nat.le_succ _) hc).imp_right fun h =>
        ⟨Nat.le_trans hle₄ h.1, h.2.1⟩

theorem Step.takers_scatterGather {plan : ScatterGatherPlan} {scatter : Scatter}
    (htidy : Tidy (fun _ => false) B ({ builder := b } :: ds) w.nextComponent)
    (hb : ∀ c ∈ (Step.scatterGather plan scatter).brought, B c)
    (hst : Yields ((Step.scatterGather plan scatter).stage b) w st w₁)
    (hbr : YieldsAll st.builder.runBranch w₁ st.flows branches w₂)
    (hclose : Yields (st.close branches) w₂ b' w₃) :
    b'.cursor.channel = none ∧
    ∀ k, k ∉ (Step.scatterGather plan scatter).ownBrought.map Channel.key →
      k.Outside w.nextComponent w₁.nextComponent →
      k.Outside w₂.nextComponent w₃.nextComponent →
      b'.takers k = b.takers k + branchTakers k branches := by
  have hspared := Step.spares_brought htidy hb
  have hgiven := Step.given_of_stage htidy hb hst
  have hneat := htidy.neat
  have hle := Step.next_le_of_stage hst
  obtain ⟨release, scattering, gather, hsame, hcloses, hchannel, hgather⟩ :=
    scatter_of_stage hst
  rw [hsame] at hbr
  rw [hcloses branches] at hclose
  have hbefore : ∀ k ∈ st.flows.flatMap Builder.givenKeys,
      k.number < w₁.nextComponent :=
    fun k hk => (hgiven k hk).2
  have hbeside := (hneat.mono hle).beside hgiven hbr
  have hle₂ := (Builder.stems_of_runBranches hbefore hbr).1
  -- What the scatter-gather reads itself is older than all that works in its
  -- branches.
  have hleaves : ∀ c ∈ [scattering.channel, gather],
      Builder.Beside.Leaves b branches w₂.nextComponent c := by
    intro c hc
    have horigin : b.Spares c.key ∧ c.key.number < w₁.nextComponent := by
      rcases List.mem_cons.1 hc with rfl | hc
      · rcases hchannel with hmem | ⟨hge, hlt⟩
        · exact (hspared _
            (List.mem_map_of_mem (List.mem_append_left _ hmem))).imp_right
            fun hlt => Nat.lt_of_lt_of_le hlt hle
        · exact ⟨hneat.spares_of_new hge, hlt⟩
      · rw [List.mem_singleton.1 hc]
        exact ⟨hneat.spares_of_new hgather.1, hgather.2⟩
    refine ⟨Nat.lt_of_lt_of_le horigin.2 hle₂, fun x hx hkey => ?_⟩
    rcases List.mem_append.1 hx with hx | hx
    · exact horigin.1 x hx hkey
    · refine Bool.eq_false_iff.2 fun hworker => ?_
      have hmade := Builder.made_of_runBranches hbefore hbr x hx hworker
      rw [hkey] at hmade
      exact absurd horigin.2 (Nat.not_lt.2 hmade)
  obtain ⟨-, hnone, htakers⟩ := Builder.takers_gathered hbeside hleaves hclose
  refine ⟨hnone, fun k hown hk hk' => htakers k hk' ?_ (hk.ne hgather.1 hgather.2)⟩
  rcases hchannel with hmem | ⟨hge, hlt⟩
  · exact fun heq => hown (heq ▸ List.mem_map_of_mem hmem)
  · exact hk.ne hge hlt

/-- A router goes on with its branches as it is said of routers. -/
theorem Step.routedTo_of_stages (hr : s.routes = true)
    (hst : Yields (s.stage b) w st w₁)
    (hbr : YieldsAll st.builder.runBranch w₁ st.flows branches w₂)
    (hclose : Yields (st.close branches) w₂ b' w₃) :
    st.builder = b ∧ b.RoutedTo s.fallsBack branches w₂ b' w₃ := by
  have hno : s.taps = false := by
    cases s <;> first | rfl | cases hr
  have hattach : Yields st.attach w₃ () w₃ := (yields_attach_iff hno hst).2 rfl
  obtain ⟨st', _, branches', _, hst', hbr', hrouted⟩ :=
    routedTo_of_yields hr (yields_of_stages hst hbr hclose hattach)
  obtain ⟨rfl, rfl⟩ := hst.eq hst'
  obtain ⟨rfl, rfl⟩ := hbr.mapM.eq hbr'.mapM
  exact ⟨(seeded_of_stage hr hst).1, hrouted⟩

theorem Step.takers_routed
    (htidy : Tidy (fun _ => false) B ({ builder := b } :: ds) w.nextComponent)
    (hb : ∀ c ∈ s.brought, B c) (hr : s.routes = true)
    (hst : Yields (s.stage b) w st w₁)
    (hbr : YieldsAll st.builder.runBranch w₁ st.flows branches w₂)
    (hclose : Yields (st.close branches) w₂ b' w₃) :
    b'.cursor.channel = none ∧ ∀ k, k.Outside w₂.nextComponent w₃.nextComponent →
      standers k (branches.flatMap Branch.opened) ≤ 1 →
      b'.takers k = b.takers k + branchTakers k branches := by
  obtain ⟨hsame, hrouted⟩ := routedTo_of_stages hr hst hbr hclose
  rw [hsame] at hbr
  have hbeside := (htidy.neat.mono (next_le_of_stage hst)).beside
    (Step.given_of_stage htidy hb hst) hbr
  exact (Builder.takers_routedTo hbeside hrouted).2

theorem SourcePlan.brought_or_made {plan : SourcePlan} {source : ChannelSource}
    (h : Yields plan.make w source w') :
    ∀ c, source = .channel c → c ∈ plan.brought ∨
      w.nextComponent ≤ c.key.number ∧ c.key.number < w'.nextComponent := by
  rintro c rfl
  cases plan with
  | channel plan =>
      obtain ⟨_, hm, heq⟩ := yields_map.1 (by simpa only [SourcePlan.make] using h)
      cases heq
      exact ChannelPlan.brought_or_made hm
  | named name => cases (yields_pure.1 (by simpa only [SourcePlan.make] using h)).1
  | fixedSubscriber id =>
      cases (yields_pure.1 (by simpa only [SourcePlan.make] using h)).1

/-- A flow that goes on through a channel stands on that one, and on no
other. -/
theorem Step.standers_channel {plan : SourcePlan}
    (hst : Yields ((Step.channel plan).stage b) w st w₁)
    (hclose : Yields (st.close branches) w₂ b' w₃)
    (hown : k ∉ (Step.channel plan).ownBrought.map Channel.key)
    (hk : k.Outside w.nextComponent w₁.nextComponent) :
    standers k b'.opened = 0 := by
  simp only [stage, yields_bind, yields_pure] at hst
  obtain ⟨source, _, hm, rfl, rfl⟩ := hst
  obtain ⟨b₁, -, rfl⟩ := Builder.of_yields_channel hclose
  refine standers_eq_zero fun c hc => ?_
  unfold Builder.opened at hc
  rw [Builder.channel_appended] at hc
  cases source with
  | channel d =>
      obtain rfl := List.mem_singleton.1 hc
      rcases SourcePlan.brought_or_made hm c rfl with hmem | ⟨hge, hlt⟩
      · exact fun heq => hown (heq ▸ List.mem_map_of_mem hmem)
      · exact hk.ne hge hlt
  | named | fixedSubscriber => cases hc

/-- A call that does not use the channel itself keeps its takers, and takes
over those of its branches. -/
theorem Step.takers_of_stages
    (htidy : Tidy (fun _ => false) B ({ builder := b } :: ds) w.nextComponent)
    (hb : ∀ c ∈ s.brought, B c) (hfresh : s.isFresh = false)
    (hst : Yields (s.stage b) w st w₁)
    (hbr : YieldsAll st.builder.runBranch w₁ st.flows branches w₂)
    (hclose : Yields (st.close branches) w₂ b' w₃)
    (hown : k ∉ s.ownBrought.map Channel.key)
    (hk : k.Outside w.nextComponent w₁.nextComponent)
    (hk' : k.Outside w₂.nextComponent w₃.nextComponent)
    (hone : standers k (branches.flatMap Branch.opened) ≤ 1) :
    b'.takers k = b.takers k + branchTakers k branches := by
  have hidle : st.flows = [] → branchTakers k branches = 0 := by
    intro hnil
    rw [hnil] at hbr
    rw [YieldsAll.eq_nil hbr]
    rfl
  cases s with
  | channel plan =>
      have hspared := Step.spares_brought htidy hb
      have hnot := standers_channel hst hclose hown hk
      simp only [stage, yields_bind, yields_pure] at hst
      obtain ⟨source, _, hm, rfl, rfl⟩ := hst
      obtain rfl := YieldsAll.eq_nil hbr
      cases hbr
      have hle := (plan.make_leaves.of_yields hm).components
      obtain ⟨-, -, htakers⟩ :=
        Builder.takers_channel (htidy.neat.mono hle) (fun c hc => by
          rcases SourcePlan.brought_or_made hm c hc with hmem | ⟨hge, hlt⟩
          · exact (hspared _
              (List.mem_map_of_mem (List.mem_append_left _ hmem))).imp_right
              fun hlt => Nat.lt_of_lt_of_le hlt hle
          · exact ⟨htidy.neat.spares_of_new hge, hlt⟩) hclose
      rw [htakers k hk', hnot, hidle rfl]
  | endpoint => exact takers_endpoint htidy hb hst hbr hclose k hk
  | wireTap => exact takers_wireTap htidy hb hst hbr hclose k hk
  | intercept plan =>
      simp only [stage, yields_bind, yields_pure] at hst
      obtain ⟨interceptor, _, hm, ⟨b₁, c⟩, _, ht, rfl, rfl⟩ := hst
      obtain ⟨rfl, -⟩ := yields_pure.1 hclose
      have hle := (plan.make_leaves.of_yields hm).components
      rw [hidle rfl]
      exact (Builder.takers_tapPoint (htidy.neat.mono hle) ht).2.2 k
        (hk.sub hle (Nat.le_refl _))
  | route | routeToRecipients =>
      exact (takers_routed htidy hb rfl hst hbr hclose).2 k hk' hone
  | publishSubscribe plan subscribers =>
      obtain ⟨c, closed, -, horigin, hlt, hfans, htakers⟩ :=
        fansOut_of_stages htidy hb hst hbr hclose
      have hne : c.key ≠ k := by
        rcases horigin with hmem | hge
        · exact fun heq => hown (heq ▸ List.mem_map_of_mem hmem)
        · exact hk.ne hge hlt
      rw [hfans.absorbs, (Builder.takers_absorb hfans.clear hfans.given).2,
        readers_of_forall₂ hfans.readers, htakers k (.inr hk),
        if_neg fun hand => hne hand.1, Nat.add_zero]
  | scatterGather =>
      exact (takers_scatterGather htidy hb hst hbr hclose).2 k hown hk hk'
  | withId id =>
      obtain ⟨rfl, -⟩ := yields_pure.1 hst
      rw [hidle rfl]
      have hclose : Yields (b.withId id) w₂ b' w₃ := hclose
      rcases of_yields_withId (by rwa [assemble, Builder.yields_guarded])
        with ⟨-, rfl, -⟩ | ⟨-, rfl, -⟩ <;> rfl
  | withSession session =>
      obtain ⟨rfl, -⟩ := yields_pure.1 hst
      rw [hidle rfl]
      have hclose : Yields (b.withSession session) w₂ b' w₃ := hclose
      rcases of_yields_withSession (by rwa [assemble, Builder.yields_guarded])
        with ⟨-, rfl, -⟩ | ⟨-, rfl, -⟩ <;> rfl
  | fresh => cases hfresh
  | faulty => exact absurd hst not_yields_throw

/-! ## Flows -/

/-- Whether the builder that the flow goes on with is another one at some
point. -/
def restarts (steps : List Step) : Bool :=
  steps.any Step.isFresh

/-- A flow that is not given the channel neither takes nor gives up anything
of it, unless its builder is thrown away. -/
def KeepsTakers (k : ComponentKey) (steps : List Step) : Prop :=
  ∀ {B : Channel → Prop} {b b' : Builder} {d : Desk} {ds : List Desk}
    {w w' : Workshop}, Tidy (fun _ => false) B ({ builder := b } :: d :: ds)
    w.nextComponent → (∀ c ∈ broughtBy steps, B c) →
    k.Outside w.nextComponent w'.nextComponent →
    Yields (assembleSteps b steps) w b' w' → b'.takers k = if restarts steps then 0
    else b.takers k

/-- A branch takes what the builder takes that it comes of. -/
theorem Builder.takers_runBranch {flow : Channel × List Step} {br : Branch}
    (hgiven : ∀ k ∈ givenKeys flow, k.number < w.nextComponent)
    (hy : Yields (b.runBranch flow) w br w') :
    ∃ nested w₁, Yields (assembleSteps (b.branch flow.1) flow.2) w nested w₁ ∧
      w'.nextComponent = w₁.nextComponent ∧
      ∀ k, branchTakers k [br] = nested.takers k := by
  have htidy := tidy_alone (b := b) hgiven
  simp only [runBranch, yields_bind] at hy
  obtain ⟨nested, w₁, hsteps, hinto⟩ := hy
  obtain ⟨rfl, hnext⟩ := eq_toBranch hinto
  have hafter :=
    htidy.passes (LeadsWithin.passes (leadsWithin flow.2 fun c hc => hc) hsteps)
  exact ⟨nested, w₁, hsteps, hnext,
    takers_toBranch hafter.neat (hafter.sound _ List.mem_cons_self).builder⟩

/-- A flow that starts elsewhere takes nothing of a channel that it is not
given, and one that starts at it takes it once, at whatever moment, unless its
builder is thrown away. -/
theorem KeepsTakers.runBranch {flow : Channel × List Step} {br : Branch}
    (h : KeepsTakers k flow.2)
    (hgiven : ∀ k ∈ Builder.givenKeys flow, k.number < w.nextComponent)
    (hk : k.Outside w.nextComponent w'.nextComponent)
    (hy : Yields (b.runBranch flow) w br w') :
    branchTakers k [br] = if restarts flow.2 then 0 else standers k [flow.1] := by
  obtain ⟨nested, w₁, hsteps, hnext, htakers⟩ := Builder.takers_runBranch hgiven hy
  rw [hnext] at hk
  rw [htakers, h (Builder.tidy_alone (b := b) hgiven) (fun c hc => hc) hk hsteps,
    Builder.takers_branch]

theorem KeepsTakers.runBranches {flows : List (Channel × List Step)}
    (h : ∀ flow ∈ flows, KeepsTakers k flow.2)
    (hgiven : ∀ k ∈ flows.flatMap Builder.givenKeys, k.number < w.nextComponent)
    (hk : k.Outside w.nextComponent w'.nextComponent)
    (hys : YieldsAll b.runBranch w flows branches w') :
    List.Forall₂ (fun flow br => branchTakers k [br] = if restarts flow.2 then 0
      else standers k [flow.1]) flows branches := by
  induction hys with
  | nil w => exact .nil
  | @cons w w₁ w' flow br flows branches hy hys ih =>
      simp only [List.forall_mem_cons, List.flatMap_cons, List.forall_mem_append]
        at h hgiven
      have hle := Builder.next_le_of_runBranch hgiven.1 hy
      have hgiven' : ∀ k ∈ flows.flatMap Builder.givenKeys,
          k.number < w₁.nextComponent :=
        fun k hk => Nat.lt_of_lt_of_le (hgiven.2 k hk) hle
      have hle' := (Builder.stems_of_runBranches hgiven' hys).1
      exact .cons
        (KeepsTakers.runBranch h.1 hgiven.1 (hk.sub (Nat.le_refl _) hle') hy)
        (ih h.2 hgiven' (hk.sub hle (Nat.le_refl _)))

/-- Flows that all start elsewhere leave nothing that would take what the
channel carries. -/
theorem branchTakers_eq_zero {flows : List (Channel × List Step)}
    (h : List.Forall₂
      (fun flow br => branchTakers k [br] = if restarts flow.2 then 0
        else standers k [flow.1]) flows branches)
    (hne : ∀ flow ∈ flows, flow.1.key ≠ k) : branchTakers k branches = 0 := by
  induction h with
  | nil => rfl
  | cons hhere _ ih =>
      rw [List.forall_mem_cons] at hne
      rw [branchTakers_cons, hhere, ih hne.2,
        standers_eq_zero (List.forall_mem_singleton.2 hne.1), ite_self]

theorem Step.next_le_of_close (hfresh : s.isFresh = false)
    (hst : Yields (s.stage b) w st w₁)
    (hclose : Yields (st.close branches) w₂ b' w₃) :
    w₂.nextComponent ≤ w₃.nextComponent := by
  cases hchange : s.changesFlow with
  | false =>
      exact (((stage_serves hst).close hchange branches).of_yields
        hclose).components
  | true =>
      obtain ⟨id, rfl⟩ | ⟨session, rfl⟩ | rfl := cases_of_changesFlow hchange
      · obtain ⟨rfl, -⟩ := yields_pure.1 hst
        have hclose : Yields (b.withId id) w₂ b' w₃ := hclose
        rcases of_yields_withId (by rwa [assemble, Builder.yields_guarded])
          with ⟨-, -, rfl⟩ | ⟨-, -, rfl⟩ <;>
          exact Nat.le_refl _
      · obtain ⟨rfl, -⟩ := yields_pure.1 hst
        have hclose : Yields (b.withSession session) w₂ b' w₃ := hclose
        rcases of_yields_withSession (by rwa [assemble, Builder.yields_guarded])
          with ⟨-, -, rfl⟩ | ⟨-, -, claims, -, rfl⟩ <;>
          exact Nat.le_refl _
      · cases hfresh

theorem Stage.next_of_attach (h : Yields st.attach w₃ () w') :
    w'.nextComponent = w₃.nextComponent := by
  unfold attach at h
  split at h
  · rw [(yields_addInterceptor.1 h).2]
  · rw [(yields_pure.1 h).2]

/-- A call that is not given the channel keeps its takers, since its flows
take none of them. -/
theorem Step.takers_of_yields
    (htidy : Tidy (fun _ => false) B ({ builder := b } :: ds) w.nextComponent)
    (hb : ∀ c ∈ s.brought, B c) (hfresh : s.isFresh = false)
    (hflows : ∀ flow ∈ s.flows, KeepsTakers k flow)
    (hout : k ∉ s.brought.map Channel.key)
    (hk : k.Outside w.nextComponent w'.nextComponent)
    (hy : Yields (s.assemble b) w b' w') : b'.takers k = b.takers k := by
  obtain ⟨st, w₁, branches, w₂, w₃, hst, hbr, hclose, hattach⟩ := of_yields hy
  have hgiven : ∀ k ∈ st.flows.flatMap Builder.givenKeys,
      k.number < w₁.nextComponent :=
    fun k hk => (given_of_stage htidy hb hst k hk).2
  have hle₁ := next_le_of_stage hst
  have hle₂ := (Builder.stems_of_runBranches hgiven hbr).1
  have hle₃ := next_le_of_close hfresh hst hclose
  rw [Stage.next_of_attach hattach] at hk
  have hown : k ∉ s.ownBrought.map Channel.key := fun hmem => hout (by
    rw [brought_eq, List.map_append]
    exact List.mem_append_left _ hmem)
  have hstage : k.Outside w.nextComponent w₁.nextComponent :=
    hk.sub (Nat.le_refl _) (Nat.le_trans hle₂ hle₃)
  have hnone : branchTakers k branches = 0 := by
    refine branchTakers_eq_zero
      (KeepsTakers.runBranches (fun flow hm => hflows _ (flow_mem_of_stage hst hm))
        hgiven (hk.sub hle₁ hle₃) hbr) fun flow hm => ?_
    rcases seeds_of_stage hst flow hm with hc | ⟨hge, hlt⟩
    · exact fun heq => hown (heq ▸ List.mem_map_of_mem hc)
    · exact hstage.ne hge hlt
  have hone : standers k (branches.flatMap Branch.opened) ≤ 1 := by
    unfold branchTakers at hnone
    omega
  have hsame := takers_of_stages htidy hb hfresh hst hbr hclose hown hstage
    (hk.sub (Nat.le_trans hle₁ hle₂) (Nat.le_refl _)) hone
  rw [hsame, hnone, Nat.add_zero]

/-- A fresh start has nothing that could take anything. -/
theorem Step.takers_fresh (hy : Yields (Step.fresh.assemble b) w b' w') :
    b'.takers k = 0 := by
  obtain ⟨⟨_, _, rfl⟩, -⟩ := of_yields_fresh hy
  rfl

theorem keepsTakers (steps : List Step) : k ∉ (broughtBy steps).map Channel.key →
    KeepsTakers k steps := by
  refine Step.flow_induction (P := fun s => k ∉ s.brought.map Channel.key →
    ∀ flow ∈ s.flows, KeepsTakers k flow)
    (Q := fun steps => k ∉ (broughtBy steps).map Channel.key → KeepsTakers k steps)
    ?step ?nil ?cons steps
  case step =>
    intro s ih hout flow hm
    refine ih flow hm fun hmem => hout ?_
    rw [Step.brought_eq, List.map_append]
    obtain ⟨c, hc, rfl⟩ := List.mem_map.1 hmem
    exact List.mem_append_right _
      (List.mem_map_of_mem (List.mem_flatMap.2 ⟨flow, hm, hc⟩))
  case nil =>
    intro _ B b b' d ds w w' _ _ _ hy
    obtain ⟨rfl, -⟩ := yields_pure.1 hy
    rfl
  case cons =>
    intro s rest hs hrest hout B b b' d ds w w' htidy hb hk hy
    rw [broughtBy_cons] at hb hout
    rw [List.map_append, List.mem_append, not_or] at hout
    obtain ⟨b₁, w₁, hstep, hy⟩ := of_yields_assembleSteps_cons hy
    have hbs : ∀ c ∈ s.brought, B c := fun c hc => hb c (List.mem_append_left _ hc)
    have hbrest : ∀ c ∈ broughtBy rest, B c :=
      fun c hc => hb c (List.mem_append_right _ hc)
    have hpass := Step.passes_answer (d := d) (t := ds) hbs hstep
    have hafter := htidy.passes hpass
    have hle := htidy.passes_le hpass
    have hle' := hafter.passes_le (LeadsWithin.passes (leadsWithin rest hbrest) hy)
    rw [hrest hout.2 hafter hbrest (hk.sub hle (Nat.le_refl _)) hy, restarts,
      restarts, List.any_cons]
    cases hfresh : s.isFresh with
    | false =>
        rw [Step.takers_of_yields htidy hbs hfresh (hs hout.1) hout.1
          (hk.sub (Nat.le_refl _) hle') hstep]
        rfl
    | true =>
        obtain rfl := Step.eq_fresh hfresh
        rw [Step.takers_fresh hstep, ite_self]
        rfl

theorem Step.takers_of_assemble
    (htidy : Tidy (fun _ => false) B ({ builder := b } :: ds) w.nextComponent)
    (hb : ∀ c ∈ s.brought, B c) (hfresh : s.isFresh = false)
    (hout : k ∉ s.brought.map Channel.key)
    (hk : k.Outside w.nextComponent w'.nextComponent)
    (hy : Yields (s.assemble b) w b' w') :
    b'.takers k = b.takers k := by
  refine takers_of_yields htidy hb hfresh
    (fun flow hm => keepsTakers flow fun hmem => hout ?_) hout hk hy
  rw [brought_eq, List.map_append]
  obtain ⟨c, hc, rfl⟩ := List.mem_map.1 hmem
  exact List.mem_append_right _
    (List.mem_map_of_mem (List.mem_flatMap.2 ⟨flow, hm, hc⟩))

end FlowAssembly
