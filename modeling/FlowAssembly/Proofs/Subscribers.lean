import FlowAssembly.Proofs.Aftermath
import FlowAssembly.Proofs.Unawaited

/-!
# The subscribers of a fan-out

Each subscriber starts at the channel that the flow stands on, and it is one
more taker of it. When it is closed it has read the channel once: with its
first endpoint, or with a bridge, wherever in its own flows and branches that
may be, or with the bridge that it is closed with if it never got to read it.
So the readers of a channel that is used nowhere else are its subscribers, and
whatever comes behind the fan-out is one more. A subscriber that answers with
another builder than the one it was handed has thrown its place away.

What a subscriber replies goes nowhere. Its last endpoint is registered
without an output, and since the builder behind the fan-out stands on the
channel, it waits for none.
-/

namespace FlowAssembly

open Assembly

section

variable {plan : FanOutPlan} {subscribers : List (List Step)} {b b' : Builder}
  {branches closed : List Branch} {c : Channel} {k : ComponentKey} {ds : List Desk}
  {w w' : Workshop}

/-- How many of the subscribers go on with the builder that they were handed. -/
def abiding (subscribers : List (List Step)) : Nat :=
  subscribers.countP fun steps => !restarts steps

/-- What a fan-out to subscribers leaves behind. The flow stands on the
channel, which occurs once. Each subscriber that goes on with the builder that
it was handed reads it once, and nothing else does. All that works in the
subscribers is registered. -/
structure Builder.FannedOut (b : Builder) (c : Channel)
    (subscribers : List (List Step)) (closed : List Branch) : Prop where
  current : b.cursor.channel = some (.channel c)
  once : (b.registry.components.map Component.key).count c.key = 1
  readers : FlowAssembly.readers c.key b.registry.components = abiding subscribers
  each :
    List.Forall₂ (fun steps br =>
      FlowAssembly.readers c.key br.registry.components = if restarts steps then 0
      else 1) subscribers closed
  stands : ∀ br ∈ closed, ∀ x ∈ br.registry.components, x.isWorker = true →
    x ∈ b.registry.components

theorem readers_of_subscribers
    (h : List.Forall₂
      (fun steps br => readers k br.registry.components = if restarts steps then 0
        else 1) subscribers closed) :
    readers k (closed.flatMap fun br => br.registry.components) =
      abiding subscribers := by
  induction h with
  | nil => rfl
  | @cons steps br subscribers closed hhere _ ih =>
      rw [List.flatMap_cons, readers_append, hhere, ih, abiding, abiding,
        List.countP_cons]
      cases restarts steps <;> simp [Nat.add_comm]

/-- A subscriber that started at the channel reads it once when it is closed. -/
theorem each_of_branches {seed : Channel}
    (h : List.Forall₂
      (fun flow br => branchTakers seed.key [br] = if restarts flow.2 then 0
        else standers seed.key [flow.1])
      (subscribers.map fun steps => (seed, steps)) branches)
    (hclosed : List.Forall₂
      (fun br br' => ∀ k, readers k br'.registry.components = branchTakers k [br])
      branches closed) :
    List.Forall₂ (fun steps br => readers seed.key br.registry.components =
      if restarts steps then 0 else 1) subscribers closed := by
  induction subscribers generalizing branches closed with
  | nil =>
      cases h
      cases hclosed
      exact .nil
  | cons steps subscribers ih =>
      obtain ⟨br, branches, hhere, hrest, rfl⟩ := List.forall₂_cons_left_iff.1 h
      obtain ⟨br', closed, hhere', hrest', rfl⟩ :=
        List.forall₂_cons_left_iff.1 hclosed
      refine .cons ?_ (ih hrest hrest')
      have hstands : standers seed.key [seed] = 1 := by simp [standers]
      rw [hhere', hhere, hstands]

theorem Tidy.top {B : Channel → Prop} {d : Desk} {n : Nat}
    (h : Tidy (fun _ => false) B (d :: ds) n) :
    Tidy (fun _ => false) B [d] n := by
  have hstock : stock (d :: ds) = stock [d] ++ stock ds := by
    rw [stock_cons, stock_cons, show stock [] = [] from rfl, List.append_nil]
  have hclear := h.clear
  rw [hstock] at hclear
  refine ⟨h.made, (Clear.append_iff.1 hclear).1, fun x hx => h.given x ?_,
    fun c hc => ?_, ?_⟩
  · rw [hstock]
    exact List.mem_append_left _ hx
  · obtain ⟨hown, hlt, hall⟩ := h.brought c hc
    refine ⟨hown, hlt, fun x hx => hall x ?_⟩
    rw [hstock]
    exact List.mem_append_left _ hx
  · exact List.forall_mem_singleton.2 (h.sound d List.mem_cons_self)

/-- The channel of a fan-out is new, or it is one that nothing reads and that
the subscribers are not given again. -/
theorem Step.unread_of_called (hc : Called (.publishSubscribe plan subscribers) b w)
    (hunread : ∀ c ∈ plan.brought, readers c.key b.components = 0)
    (hapart : ∀ c ∈ plan.brought,
      c.key ∉ (subscribers.flatMap broughtBy).map Channel.key)
    (horigin : c ∈ plan.brought ∨ w.nextComponent ≤ c.key.number) :
    readers c.key b.components = 0 ∧
    ∀ steps ∈ subscribers, c.key ∉ (broughtBy steps).map Channel.key := by
  constructor
  · rcases horigin with hmem | hge
    · exact hunread c hmem
    · have hnone := hc.takers_new hge
      unfold Builder.takers at hnone
      omega
  · intro steps hsteps hmem
    obtain ⟨d, hd, heq⟩ := List.mem_map.1 hmem
    have hinner : d ∈ subscribers.flatMap broughtBy :=
      List.mem_flatMap.2 ⟨steps, hsteps, hd⟩
    rcases horigin with hmem | hge
    · exact hapart c hmem (heq ▸ List.mem_map_of_mem hinner)
    · have hold := hc.given_brought d (by
        rw [brought_eq]
        exact List.mem_append_right _ hinner)
      rw [heq] at hold
      omega

/-- The registry behind a fan-out is put together of that of the flow and
those of the subscribers. -/
theorem Stage.FansOut.condenses {st : Stage} {w₂ w₃ : Workshop}
    (h : st.FansOut b c branches closed w₂ b' w₃) :
    Clear (fun _ => false) (st.builder.registry.components ++
      closed.flatMap fun br => br.registry.components) ∧
    Condenses (st.builder.registry.components ++ closed.flatMap fun br =>
      br.registry.components)
        b'.registry.components := by
  constructor
  · refine h.clear.of_subperm (subperm_map ?_ _)
    rw [Builder.components_eq]
    exact ((List.sublist_append_left _ _).append_right _).subperm
  · have hfolded := Registry.condenses_foldl_extend (closed.map Branch.registry)
      st.builder.registry
    rw [List.flatMap_map] at hfolded
    rw [h.absorbs]
    exact hfolded

/-- If the flow stands on a channel that nothing reads, what it is fanned out
to are its readers. -/
theorem Stage.FansOut.fannedOut {st : Stage} {seed : Channel} {w₂ w₃ : Workshop}
    (h : st.FansOut b seed branches closed w₂ b' w₃) (hs : b'.Sound)
    (hcurrent : b'.cursor.channel = some (.channel c)) (hkey : c.key = seed.key)
    (hunread : FlowAssembly.readers seed.key st.builder.components = 0)
    (heach : List.Forall₂ (fun steps br =>
      FlowAssembly.readers seed.key br.registry.components = if restarts steps
        then 0 else 1) subscribers closed) :
    b'.FannedOut c subscribers closed := by
  obtain ⟨hclear, hcondenses⟩ := h.condenses
  have hregistered :
      FlowAssembly.readers seed.key st.builder.registry.components = 0 := by
    rw [Builder.components_eq, readers_append] at hunread
    omega
  refine ⟨hcurrent, List.count_eq_one_of_mem b'.registry.nodup_keys
      (hs.current c hcurrent), ?_, ?_, fun br hm x hx hworker => ?_⟩
  · rw [hkey, hcondenses.readers hclear, readers_append, hregistered,
      readers_of_subscribers heach, Nat.zero_add]
  · rw [hkey]
    exact heach
  · exact (hcondenses.mem_iff hclear (Component.marked_of_isWorker hworker)).2
      (List.mem_append_right _ (List.mem_flatMap.2 ⟨br, hm, hx⟩))

/-- The stages of a fan-out over a channel that nothing reads, and that the
subscribers are not given again. -/
theorem Step.fannedOut_of_called
    (hc : Called (.publishSubscribe plan subscribers) b w)
    (hunread : ∀ c ∈ plan.brought, readers c.key b.components = 0)
    (hapart : ∀ c ∈ plan.brought,
      c.key ∉ (subscribers.flatMap broughtBy).map Channel.key)
    (hy : Yields ((Step.publishSubscribe plan subscribers).assemble b) w b' w') :
    ∃ st w₁ branches w₂ closed seed c,
      Yields ((Step.publishSubscribe plan subscribers).stage b) w st w₁ ∧
      st.flows = subscribers.map (fun steps => (seed, steps)) ∧ seed.key = c.key ∧
      YieldsAll st.builder.runBranch w₁ st.flows branches w₂ ∧
      YieldsAll (fun br => br.leaveOpen st.builder) w₂ branches closed w' ∧
      (c.key ∈ plan.brought.map Channel.key ∨ w.nextComponent ≤ c.key.number) ∧
      c.key.number < w'.nextComponent ∧
      b'.FannedOut c subscribers closed ∧
      b'.takers c.key = abiding subscribers + 1 ∧ ∀ br ∈ branches, br.Sound := by
  obtain ⟨B, ds, hbrought, htidy⟩ := hc.tidy
  obtain ⟨st, w₁, branches, w₂, w₃, hst, hbr, hclose, hattach⟩ := of_yields hy
  have hgiven : ∀ k ∈ st.flows.flatMap Builder.givenKeys,
      k.number < w₁.nextComponent :=
    fun k hk => (given_of_stage htidy hbrought hst k hk).2
  obtain ⟨seed, closed, hflows, horigin, hlt, hfans, htakers⟩ :=
    fansOut_of_stages htidy hbrought hst hbr hclose
  obtain rfl : w' = w₃ := (yields_attach_iff rfl hst).1 hattach
  have hafter := htidy.passes
    (Step.turns (t := ds) hbrought
      (fun flow hm => leadsWithin flow fun c hc => hbrought c (by
        rw [brought_eq]
        exact List.mem_append_right _ (List.mem_flatMap.2 ⟨flow, hm, hc⟩)))
          rfl hy).passes
  have hsound := (hafter.sound _ List.mem_cons_self).builder
  obtain ⟨c, hcurrent, hkey⟩ := Builder.currentKey?_eq_some.1 hfans.current
  have hcurrent' : b'.cursor.channel = some (.channel c) := by
    rw [hfans.absorbs]
    exact hcurrent
  -- Each subscriber reads the channel once, as it starts there and is not
  -- given it again.
  obtain ⟨hzero, hnotgiven⟩ := unread_of_called hc hunread hapart horigin
  have hbranches := KeepsTakers.runBranches (k := seed.key) (fun flow hm => by
    rw [hflows] at hm
    obtain ⟨steps, hsteps, rfl⟩ := List.mem_map.1 hm
    exact keepsTakers steps (hnotgiven steps hsteps)) hgiven (.inl hlt) hbr
  rw [hflows] at hbranches
  have heach := each_of_branches hbranches hfans.readers
  have habsorbed := (Builder.takers_absorb hfans.clear hfans.given).2 seed.key
  have hstage : st.builder.takers seed.key = 1 := by
    rw [htakers seed.key (.inl rfl), Builder.takers, hzero, Builder.standers_opened]
    by_cases hstands : b.currentKey? = some seed.key <;> simp [hstands]
  have hnothing : readers seed.key st.builder.components = 0 := by
    rw [Builder.takers, Builder.standers_opened, if_pos hfans.current] at hstage
    omega
  refine ⟨st, w₁, branches, w₂, closed, seed, c, hst, hflows, hkey.symm, hbr,
    hfans.closes, ?_, ?_, hfans.fannedOut hsound hcurrent' hkey hnothing heach,
    ?_, Builder.sound_of_runBranches hgiven hbr⟩
  · rw [hkey]
    exact horigin.imp_left fun hmem => List.mem_map_of_mem hmem
  · obtain ⟨x, hx, hxkey⟩ := List.mem_map.1 (hsound.current c hcurrent')
    rw [← hxkey]
    exact hafter.neat.given x (b'.registry_subset_components hx)
  · rw [hkey, hfans.absorbs, habsorbed, hstage, readers_of_subscribers heach,
      Nat.add_comm]

/-- The call is made on a builder that is nested in a call of a flow, and that
remains. The flow goes on with a call for each step and is finished as the
graph. Until then the channels that the caller brings to the call are used
nowhere else. -/
inductive Step.ConcludesWithin (call : Step) (b : Builder) (w : Workshop)
    (rest : List Step) (g : FlowGraph) : Prop
  | intro {program left : List Step} {past : List Moment} {outer : Step}
      {b₀ b₁ : Builder} {w₀ w₁ : Workshop} :
      Underway (fun _ => True) program b₀ w₀ past → outer.isFresh = false →
      (∀ c ∈ outer.brought, b₀.Knows w₀ c) →
      outer.Remains b₀ w₀ (call :: left) b w → Yields (outer.assemble b₀) w₀ b₁ w₁ →
      b₁.Concludes w₁ rest g →
      (∀ c ∈ call.ownBrought, b₀.takers c.key = 0 ∧
        (outer.brought.map Channel.key).count c.key ≤
        (call.brought.map Channel.key).count c.key) →
      ConcludesWithin call b w rest g

/-- All that takes the channel of such a call when it has answered reads it in
the graph. -/
theorem Step.ConcludesWithin.readers {call : Step} {rest : List Step}
    {g : FlowGraph} (h : call.ConcludesWithin b w rest g)
    (hy : Yields (call.assemble b) w b' w')
    (horigin : k ∈ call.ownBrought.map Channel.key ∨ w.nextComponent ≤ k.number)
    (hout : k ∉ (broughtBy rest).map Channel.key)
    (hlt : k.number < w'.nextComponent) :
    FlowAssembly.readers k g.components = b'.takers k ∧
    (0 < b'.takers k → (g.components.map Component.key).count k = 1) := by
  obtain ⟨hu, hfresh, hknown, hr, houter, hg, halone⟩ := h
  rename_i program left past outer b₀ b₁ w₀ w₁
  rcases horigin with hmem | hge
  · obtain ⟨c, hc, rfl⟩ := List.mem_map.1 hmem
    obtain ⟨hzero, hfew⟩ := halone c hc
    have hbrought : c ∈ broughtBy [outer] := by
      have hvisits : FlowAssembly.Visits [outer] b₀ w₀ (call :: left) b w :=
        hr.visits.mem
      have hsub := hvisits.brought_sublist
      rw [broughtBy_cons] at hsub
      exact hsub.subset
        (List.mem_append_left _
          (by rw [brought_eq]; exact List.mem_append_left _ hc))
    rw [broughtBy_cons] at hbrought
    have hold :=
      (hknown c ((List.mem_append.1 hbrought).resolve_right List.not_mem_nil)).made
    exact hr.readers hu hfresh hknown hy houter hg hfew hout hzero (.inl hold) hlt
  · obtain ⟨-, ds, hpasses⟩ :=
      hr.visits.passes (B := (· ∈ outer.brought)) fun c hc => hc
    have hle := (hu.tidy fun c hc => ⟨trivial, hknown c hc⟩).passes_le hpasses
    have hnot : k ∉ outer.brought.map Channel.key := by
      intro hmem
      obtain ⟨c, hc, rfl⟩ := List.mem_map.1 hmem
      have hold := (hknown c hc).made
      omega
    have hfew : (outer.brought.map Channel.key).count k ≤
          (call.brought.map Channel.key).count k := by
      rw [List.count_eq_zero.2 hnot]
      exact Nat.zero_le _
    exact hr.readers hu hfresh hknown hy houter hg hfew hout
      (hu.takers_new (Nat.le_trans hle hge)) (.inr hge) hlt

/-- A call that is all of the flow of another one is nested in it. Where no
flow is thrown away its builder remains. -/
theorem Step.exists_concludesWithin {outer call : Step} {program : List Step}
    {past : List Moment} {b₀ b₁ : Builder} {w₀ w₁ : Workshop} {rest : List Step}
    {g : FlowGraph} (hu : Underway (fun _ => True) program b₀ w₀ past)
    (hfresh : outer.isFresh = false) (hcontained : outer.Contained)
    (hflows : outer.flows = [[call]]) (hknown : ∀ c ∈ outer.brought, b₀.Knows w₀ c)
    (hbare : call.ownBrought = []) (hy : Yields (outer.assemble b₀) w₀ b₁ w₁)
    (hg : b₁.Concludes w₁ rest g) :
    ∃ b w b' w', Called call b w ∧ Yields (call.assemble b) w b' w' ∧
      call.ConcludesWithin b w rest g := by
  obtain ⟨st, w₂, branches, w₃, w₄, hst, hbr, -, -⟩ := of_yields hy
  obtain ⟨flow, hflow, hsteps⟩ :=
    List.map_eq_singleton_iff.1 ((steps_of_stage hst).trans hflows)
  have hvisits : outer.Visits b₀ w₀ [call] (st.builder.branch flow.1) w₂ :=
    ⟨st, w₂, [], flow, [], [], w₂, hst, hflow, .nil w₂,
      by rw [hsteps]; exact .here _ _ _⟩
  rw [hflow] at hbr
  cases hbr with
  | cons hrun =>
      rw [Builder.runBranch, yields_bind, hsteps] at hrun
      obtain ⟨nested, w₅, hassembled, -⟩ := hrun
      obtain ⟨b', w', hcall, -⟩ := of_yields_assembleSteps_cons hassembled
      refine ⟨_, _, b', w', .nested hu hknown hvisits, hcall, ?_⟩
      refine .intro hu hfresh hknown (hvisits.remains hcontained) hy hg ?_
      rw [hbare]
      exact List.forall_mem_nil _

theorem Branch.mem_of_leaveOpen
    (h : YieldsAll (fun br => br.leaveOpen b) w branches closed w') {br : Branch}
    (hm : br ∈ branches) (hnone : br.channel? = none) : br ∈ closed := by
  induction h with
  | nil => exact hm
  | @cons w w₁ w' br₀ br' branches closed hy _ ih =>
      rcases List.mem_cons.1 hm with rfl | hm
      · rcases of_yields_leaveOpen hy with ⟨-, rfl, rfl⟩ | ⟨last, key, he, -⟩
        · exact List.mem_cons_self
        · rw [channel?, he] at hnone
          cases hnone
      · exact List.mem_cons_of_mem _ (ih hm)

/-- A fan-out over a channel that is used nowhere else. Each subscriber that
goes on with the builder that it was handed reads the channel once, and
nothing else does. In a graph that the flow is finished as there is one more
reader, if the flow goes on behind the fan-out with a call that takes up the
channel, or is closed because the channel is an implicit one, or is nested in
the call of another. The channel occurs once. What a subscriber stops on has
no output, and gets none in any graph. -/
theorem fanned_out (hc : Called (.publishSubscribe plan subscribers) b w)
    (hunread : ∀ c ∈ plan.brought, readers c.key b.components = 0)
    (hapart : ∀ c ∈ plan.brought,
      c.key ∉ (subscribers.flatMap broughtBy).map Channel.key)
    (hy : Yields ((Step.publishSubscribe plan subscribers).assemble b) w b' w') :
    ∃ st w₁ branches w₂ closed seed c,
      Yields ((Step.publishSubscribe plan subscribers).stage b) w st w₁ ∧
      st.flows = subscribers.map (fun steps => (seed, steps)) ∧ seed.key = c.key ∧
      YieldsAll st.builder.runBranch w₁ st.flows branches w₂ ∧
      YieldsAll (fun br => br.leaveOpen st.builder) w₂ branches closed w' ∧
      b'.FannedOut c subscribers closed ∧
      (∀ {rest g}, b'.Concludes w' rest g →
        c.key ∉ (broughtBy rest).map Channel.key →
        readers c.key g.components = abiding subscribers +
          (if rest.any Step.consumes || c.implicit then 1 else 0) ∧
        (g.components.map Component.key).count c.key = 1) ∧
      (∀ {rest g},
        (Step.publishSubscribe plan subscribers).ConcludesWithin b w rest g →
        c.key ∉ (broughtBy rest).map Channel.key →
        readers c.key g.components = abiding subscribers + 1 ∧
        (g.components.map Component.key).count c.key = 1) ∧
      ∀ br ∈ branches, ∀ output, br.ending = .pending output →
        ∃ x ∈ b'.registry.components, output.Belongs x ∧
          ∀ g, (Step.publishSubscribe plan subscribers).Concludes b w g →
            ∀ y ∈ g.components, y.key = x.key → y.output? = none := by
  obtain ⟨st, w₁, branches, w₂, closed, seed, c, hst, hflows, hseed, hbr, hcloses,
    horigin, hlt, hfanned, htakers, hsound⟩ :=
    Step.fannedOut_of_called hc hunread hapart hy
  obtain ⟨B, ds, hbrought, htidy⟩ := hc.tidy
  have hafter := htidy.passes
    (Step.turns (t := ds) hbrought
      (fun flow hm => leadsWithin flow fun c hc => hbrought c (by
        rw [Step.brought_eq]
        exact List.mem_append_right _ (List.mem_flatMap.2 ⟨flow, hm, hc⟩)))
          rfl hy).passes
  have hpos : 0 < b'.takers c.key := by omega
  refine ⟨st, w₁, branches, w₂, closed, seed, c, hst, hflows, hseed, hbr, hcloses,
    hfanned, ?_, ?_, ?_⟩
  · intro rest g hg hout
    obtain ⟨hreaders, honce⟩ := hg.takers (Tidy.lasting.forget hafter.top) hlt hout
    refine ⟨?_, honce hpos⟩
    have hopened : b'.opened = [c] := by rw [Builder.opened, hfanned.current]
    rw [htakers, hopened] at hreaders
    cases hmoved : rest.any Step.consumes <;> cases himplicit : c.implicit <;>
      simp [hmoved, himplicit, standers] at hreaders ⊢ <;> omega
  · intro rest g hwithin hout
    obtain ⟨hreaders, honce⟩ := hwithin.readers hy horigin hout hlt
    rw [htakers] at hreaders
    exact ⟨hreaders, honce hpos⟩
  · intro br hm output hending
    obtain ⟨x, hx, hbelongs⟩ := (hsound br hm).awaited output hending
    have hworker := Component.isWorker_of_replies hbelongs.replies
    have hsame : br ∈ closed :=
      Branch.mem_of_leaveOpen hcloses hm (by rw [Branch.channel?, hending])
    have hstands := hfanned.stands br hsame x hx hworker
    refine ⟨x, hstands, hbelongs,
      fun g hg => hg.silent hy hstands hworker hbelongs.unset ?_⟩
    have hnone : b'.cursor.pending = none := by
      by_contra hsome
      cases (hafter.sound _ List.mem_cons_self).builder.unbound hsome _
        hfanned.current
    rw [hnone]
    rintro _ ⟨⟩

theorem Start.components_empty {config : Config}
    (h : Yields (Start.make (.empty config)) w b w') : b.components = [] := by
  simp only [Start.make, Builder.withConfig, yields_bind, yields_newFlowId,
    yields_newSession, yields_pure] at h
  obtain ⟨_, _, ⟨rfl, rfl⟩, _, _, ⟨rfl, rfl⟩, rfl, rfl⟩ := h
  rfl

/-- Subscribers that add nothing, only tap, stop on an endpoint that replies,
and start with branches of their own. The flow goes on behind them with a
bridge. Another fan-out is all of the side flow of an endpoint. -/
theorem fanned_out_to_four :
    let news : Channel := ⟨⟨0⟩, some "news", .direct, [], false, none⟩
    let branching : Step :=
      .route { strategy := .header "kind" } [("a", .flow [.handle .bridge])]
    let plan : FanOutPlan := { channel := some (.existing news) }
    let subscribers : List (List Step) :=
      [[], [.log .info none], [.handle .bridge], [branching]]
    let call : Step := .publishSubscribe plan subscribers
    let inner : Step := .publishSubscribe {} [[.handle .bridge], [.log .info none]]
    (∃ b w b' w' b₁ w₁ g v closed c, Called call b w ∧
      (∀ c ∈ plan.brought, readers c.key b.components = 0) ∧
      (∀ c ∈ plan.brought,
        c.key ∉ (subscribers.flatMap broughtBy).map Channel.key) ∧
      Yields (call.assemble b) w b' w' ∧
      Yields ((Step.handle .bridge).assemble b') w' b₁ w₁ ∧
      Yields b₁.finish w₁ g v ∧
      b'.registry.components.map (fun x => x.key.number) =
        [0, 9, 1, 2, 10, 3, 7, 4, 5, 6, 8] ∧
      b'.FannedOut c subscribers closed ∧
      readers c.key b'.registry.components = 4 ∧ readers c.key g.components = 5 ∧
      (g.components.map Component.key).count c.key = 1) ∧
    ∃ b w b' w' g c, inner.ConcludesWithin b w [] g ∧
      Yields (inner.assemble b) w b' w' ∧ b'.cursor.channel = some (.channel c) ∧
      readers c.key g.components = 3 ∧
      (g.components.map Component.key).count c.key = 1 := by
  intro news branching plan subscribers call inner
  refine ⟨?_, ?nested⟩
  case nested =>
    let outer : Step :=
      .endpoint { handler := .bridge } [(.new .direct (some "side") [] [], [inner])]
    obtain ⟨g, v, hy, -⟩ := exists_yields (m := do
        let b ← (Start.empty {}).make
        let b ← outer.assemble b
        b.finish) (f := fun _ => ()) (w := .start 1 1) (y := ()) (by decide +kernel)
    simp only [yields_bind] at hy
    obtain ⟨b₀, w₀, hmake, b₁, w₁, houter, hfinish⟩ := hy
    have hstart : Underway (fun _ => True) [] b₀ w₀ [.first b₀] :=
      .start (by simp [Start.brought]) hmake
    have hbare : outer.brought = [] := by decide
    have hflows : outer.flows = [[inner]] := rfl
    obtain ⟨b, w, b', w', hcalled, hcall, hwithin⟩ :=
      Step.exists_concludesWithin hstart rfl (by decide) hflows
        (by rw [hbare]; exact List.forall_mem_nil _) rfl houter (.finish hfinish)
    obtain ⟨st, v₁, branches, v₂, closed, seed, c, -, -, -, -, -, hfanned, -,
      hgraph, -⟩ :=
      fanned_out hcalled (List.forall_mem_nil _) (List.forall_mem_nil _) hcall
    obtain ⟨hreaders, honce⟩ := hgraph hwithin List.not_mem_nil
    exact ⟨b, w, b', w', g, c, hwithin, hcall, hfanned.current, hreaders, honce⟩
  obtain ⟨b', v, hy, hkeys⟩ := exists_yields (m := do
      let b ← (Start.empty {}).make
      let b' ← call.assemble b
      let b₁ ← (Step.handle .bridge).assemble b'
      let _ ← b₁.finish
      return b') (f := fun b' => b'.registry.components.map fun x => x.key.number)
        (w := .start 1 1)
    (y := [0, 9, 1, 2, 10, 3, 7, 4, 5, 6, 8]) (by decide +kernel)
  simp only [yields_bind, yields_pure] at hy
  obtain ⟨b, w, hmake, _, w', hcall, b₁, w₁, hnext, g, _, hfinish, rfl, rfl⟩ := hy
  have hbrought :
      ∀ c ∈ call.brought, c.key.number < (Workshop.start 1 1).nextComponent := by
    have hall : call.brought = [news] := by decide
    rw [hall]
    decide
  have hcalled : Called call b w := .of_start hmake hbrought
  have hunread : ∀ c ∈ plan.brought, readers c.key b.components = 0 := by
    rw [Start.components_empty hmake]
    exact fun _ _ => rfl
  have hapart : ∀ c ∈ plan.brought,
      c.key ∉ (subscribers.flatMap broughtBy).map Channel.key := by
    have hnone : subscribers.flatMap broughtBy = [] := by decide
    rw [hnone]
    exact fun _ _ => List.not_mem_nil
  have hbare : (Step.handle .bridge).brought = [] := by decide
  have hconcludes : b'.Concludes w' [Step.handle .bridge] g :=
    .call rfl (by rw [hbare]; exact List.forall_mem_nil _) hnext (.finish hfinish)
  obtain ⟨st, v₁, branches, v₂, closed, seed, c, -, -, -, -, -, hfanned,
    hgraph, -, -⟩ :=
    fanned_out hcalled hunread hapart hcall
  have hnothing : broughtBy [Step.handle .bridge] = [] := by decide
  obtain ⟨hreaders, honce⟩ :=
    hgraph hconcludes (by rw [hnothing]; exact List.not_mem_nil)
  have hfour : abiding subscribers = 4 := by decide
  refine ⟨b, w, b', w', b₁, w₁, g, v, closed, c, hcalled, hunread, hapart, hcall,
    hnext, hfinish, hkeys, hfanned, ?_, ?_, honce⟩
  · rw [hfanned.readers, hfour]
  · rw [hreaders, hfour]
    rfl

/-- A subscriber that answers with another builder than the one that it was
handed has nothing that reads the channel, which was made for the two
subscribers. -/
theorem fanned_out_fresh :
    let subscribers : List (List Step) := [[.fresh], [.handle .bridge]]
    let call : Step := .publishSubscribe {} subscribers
    ∃ b w b' w' g v c, Called call b w ∧ b.components = [] ∧
      Yields (call.assemble b) w b' w' ∧ Yields b'.finish w' g v ∧
      b'.cursor.channel = some (.channel c) ∧ subscribers.flatMap broughtBy = [] ∧
      readers c.key b'.registry.components = 1 ∧ subscribers.length = 2 := by
  intro subscribers call
  obtain ⟨b', v, hy, -⟩ := exists_yields (m := do
      let b ← (Start.empty {}).make
      let b' ← call.assemble b
      let _ ← b'.finish
      return b') (f := fun b' => b'.registry.components.map fun x => x.key.number)
        (w := .start 1 1)
    (y := [1, 2]) (by decide +kernel)
  simp only [yields_bind, yields_pure] at hy
  obtain ⟨b, w, hmake, _, w', hcall, g, _, hfinish, rfl, rfl⟩ := hy
  have hbare : call.brought = [] := by decide
  have hcalled : Called call b w :=
    .of_start hmake (by rw [hbare]; exact List.forall_mem_nil _)
  obtain ⟨st, w₁, branches, w₂, closed, seed, c, -, -, -, -, -, -, -,
    hfanned, -, -⟩ :=
    Step.fannedOut_of_called hcalled (List.forall_mem_nil _)
      (List.forall_mem_nil _) hcall
  exact ⟨b, w, b', w', g, _, c, hcalled, Start.components_empty hmake, hcall,
    hfinish, hfanned.current, by decide, hfanned.readers, rfl⟩

end

end FlowAssembly
