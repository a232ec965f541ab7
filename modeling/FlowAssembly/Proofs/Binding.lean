import FlowAssembly.Proofs.Extension

/-!
# Binding what is pending

An output that is pending goes to whatever the next call puts behind it. A
channel or a name that the flow goes on through is bound at once, and an
endpoint that is attached has the output bound to its input. A call that
appends nothing leaves the output pending: it says who owns the flow, or it
leaves a marker, which is no target yet. A marker behind a marker does append
something, as the first of them gets a bridge.

A call may do more once the output is bound, but all of that is done behind
the component, which is settled by then.
-/

namespace FlowAssembly

open Assembly

theorem Component.output?_withOutput {x : Component} (target : Target)
    (h : x.isWorker = true) :
    (x.withOutput target).output? = some target := by
  cases x with
  | channel => cases h
  | endpoint | source => rfl

namespace Builder

variable {b b₁ b' : Builder} {e : Endpoint} {input : ResolvedInput}
  {k : ComponentKey} {p : PendingOutput} {sides : List Registry}
  {source : ChannelSource} {target : Target} {w w' : Workshop} {x : Component}

/-- The output of the component is bound to the target, and nothing will
change it. -/
def Sends (b : Builder) (k : ComponentKey) (target : Target) : Prop :=
  ∃ x, b.Settled x ∧ x.key = k ∧ x.output? = some target

/-- An endpoint of the flow reads the target. -/
def IsRead (b : Builder) (target : Target) : Prop :=
  ∃ e, .endpoint e ∈ b.registry.components ∧ e.input = target

/-- The flow stands on the target. -/
def StandsOn (b : Builder) (target : Target) : Prop :=
  ∃ source ∈ b.cursor.channel, source.target? = some target

theorem Sends.extends (h : b.Sends k target) (hx : b.Extends b') :
    b'.Sends k target := by
  obtain ⟨x, hsettled, hkey, hout⟩ := h
  exact ⟨x, hx.settled x hsettled, hkey, hout⟩

theorem subset_mergedOn (b : Builder) (branches : List Branch) (m : Channel) :
    b.registry.components ⊆ (b.mergedOn branches m).registry.components := by
  refine List.Subset.trans
    (Registry.subset_foldl_extend (branches.map Branch.registry) b.registry) ?_
  unfold Builder.mergedOn
  dsimp only [continueFrom]
  split
  · exact (Registry.perm_relocateToEnd _ _).symm.subset
  · exact Registry.subset_add _ _

theorem Sends.mergedOn (h : b.Sends k target) (branches : List Branch)
    (m : Channel) :
    (b.mergedOn branches m).Sends k target := by
  obtain ⟨x, hsettled, hkey, hout⟩ := h
  exact ⟨x, ⟨b.subset_mergedOn branches m hsettled.mem, hsettled.apart⟩, hkey, hout⟩

namespace IsRead

theorem mono (h : b.IsRead target)
    (hs : b.registry.components ⊆ b'.registry.components) : b'.IsRead target := by
  obtain ⟨e, he, hinput⟩ := h
  exact ⟨e, hs he, hinput⟩

theorem bindPending (h : b.IsRead target) (t : Target) :
    (b.bindPending t).IsRead target := by
  obtain ⟨e, he, rfl⟩ := h
  have hmem := List.mem_map_of_mem (f := b.bound t) he
  rw [← components_bindPending, bound_eq] at hmem
  rcases Component.settled_eq_or (b.binding t) (.endpoint e) with heq | ⟨out, heq⟩
  · exact ⟨e, by rwa [heq] at hmem, rfl⟩
  · rw [heq] at hmem
    exact ⟨_, hmem, rfl⟩

theorem appended (h : b.IsRead target) (source : ChannelSource) :
    (b.appended source).IsRead target := by
  cases source with
  | channel c =>
      have hadded :
          IsRead { b with registry := b.registry.add (.channel c) } target :=
        h.mono (Registry.subset_add _ _)
      exact hadded.bindPending (.channel c)
  | named name => exact h.bindPending (.named name)
  | fixedSubscriber id => exact h

theorem wired (h : b.IsRead target) (input : ResolvedInput) (sides : List Registry)
    (e : Endpoint) :
    (b.wired input sides e).IsRead target := by
  have hready : (b.ready input sides).IsRead target := by
    rw [ready_eq]
    exact (h.mono (b.subset_placed input sides)).bindPending input.target
  refine hready.mono ?_
  rw [registry_wired]
  exact List.Subset.trans (Registry.subset_add _ _)
    (Registry.subset_foldl_extend _ _)

end IsRead

/-! ## Operations -/

theorem bound_of_pending (hp : p ∈ b.cursor.pending) (hkey : x.key = p.component)
    (target : Target) :
    b.bound target x = x.withOutput target := by
  rw [bound, Option.mem_def.1 hp]
  exact if_pos hkey

/-- An endpoint that is attached has what is pending bound to its input. -/
theorem sends_wired (hp : p ∈ b.cursor.pending) (hx : x ∈ b.registry.components)
    (hkey : x.key = p.component) (hworker : x.isWorker = true)
    (hfresh : ∀ x ∈ b.registry.components, x.key ≠ e.key) :
    (b.wired input sides e).Sends p.component input.target := by
  refine ⟨x.withOutput input.target, ⟨?_, fun q hq => ?_⟩,
    (Component.key_withOutput _ x).trans hkey,
    Component.output?_withOutput _ hworker⟩
  · rw [registry_wired, ready_eq]
    refine Registry.subset_foldl_extend _ _ (Registry.subset_add _ _ ?_)
    rw [components_bindPending]
    refine List.mem_map.2 ⟨x, b.subset_placed input sides hx,
      bound_of_pending ?_ hkey _⟩
    rw [cursor_placed]
    exact hp
  · rw [cursor_wired] at hq
    rw [Component.key_withOutput]
    dsimp only at hq
    split at hq
    · cases hq
      exact (hfresh x hx).symm
    · cases hq

/-- A channel or a name that a flow goes on through is what the pending output
is bound to. -/
theorem sends_appended (hp : p ∈ b.cursor.pending) (hx : x ∈ b.registry.components)
    (hkey : x.key = p.component) (hworker : x.isWorker = true)
    (ht : source.target? = some target) :
    (b.appended source).Sends p.component target := by
  refine ⟨x.withOutput target, ⟨?_, fun q hq => ?_⟩,
    (Component.key_withOutput _ x).trans hkey,
    Component.output?_withOutput _ hworker⟩
  · cases source with
    | channel c =>
        cases ht
        have hbound := components_bindPending
          { b with registry := b.registry.add (.channel c) } (.channel c)
        exact hbound ▸ List.mem_map.2 ⟨x, Registry.subset_add _ _ hx,
          bound_of_pending (by exact hp) hkey _⟩
    | named name =>
        cases ht
        exact components_bindPending b (.named name) ▸ List.mem_map.2
          ⟨x, hx, bound_of_pending hp hkey _⟩
    | fixedSubscriber id => cases ht
  · rw [b.pending_appended ht] at hq
    cases hq

/-- The output of the component is bound to what the flow goes on with: the
flow stands on it, or an endpoint reads it. -/
def HandsOn (b : Builder) (k : ComponentKey) : Prop :=
  ∃ target, b.Sends k target ∧ (b.StandsOn target ∨ b.IsRead target)

/-- The output of a component of the flow is pending. -/
structure Awaits (b : Builder) (p : PendingOutput) : Prop where
  pending : p ∈ b.cursor.pending
  stands : ∃ x ∈ b.registry.components, x.key = p.component ∧ x.isWorker = true

theorem Awaits.attach (h : b.Awaits p) {spec : EndpointSpec}
    (hgiven : ∀ x ∈ b.registry.components, x.key.number < w.nextComponent)
    (hy : Yields (b.attach spec) w b' w') :
    ∃ target, b'.Sends p.component target ∧ b'.IsRead target := by
  obtain ⟨x, hx, hkey, hworker⟩ := h.stands
  obtain ⟨input, w₁, hi, hw⟩ := of_yields_attach hy
  obtain ⟨e, rfl, hfresh, -, hreads, -⟩ := wired_of_yields hw
  have hle : w.nextComponent ≤ w₁.nextComponent :=
    ((resolveInput_leaves _ _).of_yields hi).components
  have hold : ∀ x ∈ b.registry.components, x.key ≠ e.key := fun x hx =>
    hfresh.ne_of_lt (Nat.lt_of_lt_of_le (hgiven x hx) hle)
  refine ⟨_, sends_wired h.pending hx hkey hworker hold, e,
    mem_wired fun y hy => ?_, hreads⟩
  rw [List.flatMap_nil, List.append_nil] at hy
  rcases List.mem_append.1 hy with hy | hy
  · exact hold y hy
  · rcases of_yields_resolveInput hi
      with ⟨c, -, rfl, -⟩ | ⟨name, -, rfl, -⟩ | ⟨c, -, rfl, hk, rfl⟩
    · cases hy
    · cases hy
    · rw [List.mem_singleton.1 hy]
      exact hfresh.ne_of_lt (by
        rw [show (Component.channel c).key = c.key from rfl, hk]
        exact Nat.lt_succ_self _)

/-- What a flow goes on through takes up what is pending, unless it is a
marker. A marker leaves it pending, but where the flow stands on something the
bridge that reads that comes first. -/
theorem Awaits.channel (h : b.Awaits p)
    (hgiven : ∀ x ∈ b.components, x.key.number < w.nextComponent)
    (hs : ∀ c, source = .channel c → b.Knows w c)
    (ha : b.cursor.channel ≠ none ∨ source.target? ≠ none)
    (hy : Yields (b.channel source) w b' w') : b'.HandsOn p.component := by
  obtain ⟨b₁, hb, rfl⟩ := of_yields_channel hy
  rcases hb with ⟨-, hb⟩ | ⟨hnone, rfl, -⟩
  · have hattach := of_yields_bridge hb
    have hregistry : ∀ x ∈ b.registry.components, x.key.number < w.nextComponent :=
      fun x hx => hgiven x (b.registry_subset_components hx)
    obtain ⟨target, hsends, hread⟩ := h.attach (by exact hregistry) hattach
    obtain ⟨-, hcurrent⟩ := extends_attach (by exact hregistry) hattach
    refine ⟨target,
      hsends.extends
        (extends_appended (currentKey?_of_none hcurrent) fun c hc x hx hk => ?_),
      .inr (hread.appended source)⟩
    have hknows : b.Knows { w with nextHandler := w.nextHandler + 1 } c :=
      ⟨(hs c hc).made, (hs c hc).same⟩
    exact (hknows.attach hattach).same x (b₁.registry_subset_components hx) hk
  · obtain ⟨target, ht⟩ :=
      Option.ne_none_iff_exists'.1 (ha.resolve_left fun hne => hne hnone)
    obtain ⟨x, hx, hkey, hworker⟩ := h.stands
    exact ⟨target, sends_appended h.pending hx hkey hworker ht,
      .inl ⟨source, channel_appended _ source, ht⟩⟩

theorem Awaits.tapPoint (h : b.Awaits p) {attempted : String} {c : Channel}
    (hcurrent : ∀ source ∈ b.cursor.channel, source.target? = none)
    (hy : Yields (b.tapPoint attempted) w (b', c) w') : b'.HandsOn p.component := by
  obtain ⟨x, hx, hkey, hworker⟩ := h.stands
  rcases of_yields_tapPoint hy with ⟨hc, -, -⟩ | ⟨-, rfl, -, -⟩
  · cases hcurrent _ hc
  · exact ⟨.channel c, sends_appended h.pending hx hkey hworker rfl,
      .inl ⟨_, channel_appended b _, rfl⟩⟩

/-- A builder that holds more, and stands where it stood. -/
theorem HandsOn.extends (h : b.HandsOn k) (hx : b.Extends b')
    (hs : b.registry.components ⊆ b'.registry.components)
    (hc : b'.cursor.channel = b.cursor.channel) : b'.HandsOn k := by
  obtain ⟨target, hsends, htakes⟩ := h
  refine ⟨target, hsends.extends hx, htakes.imp (fun hstands => ?_) fun hread =>
    hread.mono hs⟩
  rw [StandsOn, hc]
  exact hstands

end Builder

/-! ## Calls -/

namespace Step

variable {s : Step} {b b' : Builder} {p : PendingOutput} {w w' : Workshop}

/-- Whether the call puts something behind what the flow ends on. A marker is
nothing yet, but the flow goes on behind a bridge if it stood on something
before. -/
def appends (b : Builder) : Step → Bool
  | .channel (.fixedSubscriber _) => b.cursor.channel.isSome
  | .withId _ | .withSession _ | .fresh | .faulty _ => false
  | _ => true

theorem handsOn_channel {plan : SourcePlan} (hf : (Step.channel plan).Finds b w)
    (h : b.Awaits p) (ha : (Step.channel plan).appends b = true)
    (hy : Yields ((Step.channel plan).assemble b) w b' w') :
    b'.HandsOn p.component := by
  obtain ⟨source, w₁, hm, hy⟩ := of_yields_channel hy
  refine h.channel (hf.later (plan.make_leaves.of_yields hm).components)
    (hf.knows_source hm) ?_ hy
  cases plan with
  | channel plan =>
      obtain ⟨c, -, rfl⟩ := yields_map.1 (by simpa only [SourcePlan.make] using hm)
      exact .inr (Option.some_ne_none _)
  | named name =>
      obtain ⟨rfl, -⟩ := yields_pure.1 (by simpa only [SourcePlan.make] using hm)
      exact .inr (Option.some_ne_none _)
  | fixedSubscriber id => exact .inl (Option.isSome_iff_ne_none.1 ha)

theorem handsOn_endpoint {plan : EndpointPlan}
    {sides : List (ChannelPlan × List Step)}
    (hf : (Step.endpoint plan sides).Finds b w) (h : b.Awaits p)
    (hy : Yields ((Step.endpoint plan sides).assemble b) w b' w') :
    b'.HandsOn p.component := by
  obtain ⟨handler, w₁, seeds, w₂, spec, input, w₃, branches, w₄, closed, w₅,
    hm, hs, hi, hbr, hopen, hy⟩ :=
    of_yields_endpoint hy
  obtain ⟨e, rfl, hfresh, -, hreads, -⟩ := Builder.wired_of_yields hy
  obtain ⟨x, hx, hkey, hworker⟩ := h.stands
  have hle₁ := (plan.handler.make_leaves.of_yields hm).components
  have hle₂ :=
    (supplied_of_yieldsAll (fun side => side.1.make_leaves) hs).components
  have hle₃ := ((resolveInput_leaves _ _).of_yields hi).components
  have hle₅ : w₄.nextComponent ≤ w₅.nextComponent :=
    ((b.leaveOpen_adds branches).of_yields hopen.mapM).components
  have hgiven : ∀ k ∈ (seeds.zip (sides.map Prod.snd)).flatMap Builder.givenKeys,
      k.number < w₃.nextComponent :=
    fun k hk => Nat.lt_of_lt_of_le (hf.given_of_sides hle₁ hs k hk) hle₃
  obtain ⟨hle₄, hstems⟩ := Builder.stems_of_runBranches hgiven hbr
  have hold : ∀ x ∈ b.registry.components, x.key ≠ e.key := fun x hx => by
    have hlt := hf.given x (b.registry_subset_components hx)
    exact hfresh.ne_of_lt (by omega)
  refine ⟨_, Builder.sends_wired h.pending hx hkey hworker hold,
    .inr ⟨e, Builder.mem_wired fun y hy => ?_, hreads⟩⟩
  rcases List.mem_append.1 hy with hy | hy
  · rcases List.mem_append.1 hy with hy | hy
    · exact hold y hy
    · rw [List.flatMap_map] at hy
      exact hfresh.ne_of_lt
        (Builder.lt_of_leaveOpen (fun x hx => (hstems x hx).2) hopen y hy)
  · rcases of_yields_resolveInput hi
      with ⟨c, -, rfl, -⟩ | ⟨name, -, rfl, -⟩ | ⟨c, -, rfl, hk, rfl⟩
    · cases hy
    · cases hy
    · rw [List.mem_singleton.1 hy]
      refine hfresh.ne_of_lt ?_
      rw [show (Component.channel c).key = c.key from rfl, hk]
      exact Nat.lt_of_lt_of_le (Nat.lt_succ_self _) (Nat.le_trans hle₄ hle₅)

theorem handsOn_routed (hf : s.Finds b w) (h : b.Awaits p) (hr : s.routes = true)
    (hy : Yields (s.assemble b) w b' w') : b'.HandsOn p.component := by
  obtain ⟨spec, w₁, b₁, w₂, branches, hle, ha, -, hb⟩ := routed_of_yields hf hr hy
  obtain ⟨target, hsends, hread⟩ :=
    h.attach (fun x hx => hf.later hle x (b.registry_subset_components hx)) ha
  rcases hb with rfl | ⟨m, e, hspares, -, hreads, hfresh, rfl⟩
  · exact ⟨target, hsends.extends (b₁.extends_absorb branches),
      .inr (hread.mono (Registry.subset_foldl_extend _ _))⟩
  · refine ⟨target,
      (hsends.mergedOn branches m).extends
        (Builder.extends_wired hreads (fun c hc => ?_) hfresh),
      .inr ((hread.mono (b₁.subset_mergedOn branches m)).wired _ _ _)⟩
    cases hc
    rfl

theorem handsOn_scatterGather {plan : ScatterGatherPlan} {scatter : Scatter}
    (hf : (Step.scatterGather plan scatter).Finds b w) (h : b.Awaits p)
    (hy : Yields ((Step.scatterGather plan scatter).assemble b) w b' w') :
    b'.HandsOn p.component := by
  obtain ⟨spec, w₁, b₁, w₂, hle, ha, hextends, hsubset⟩ := scattered_of_yields hy
  obtain ⟨target, hsends, hread⟩ :=
    h.attach (fun x hx => hf.later hle x (b.registry_subset_components hx)) ha
  exact ⟨target, hsends.extends hextends, .inr (hread.mono hsubset)⟩

theorem handsOn_publishSubscribe {plan : FanOutPlan}
    {subscribers : List (List Step)}
    (hf : (Step.publishSubscribe plan subscribers).Finds b w) (h : b.Awaits p)
    (hcurrent : ∀ source ∈ b.cursor.channel, source.target? = none)
    (hy : Yields ((Step.publishSubscribe plan subscribers).assemble b) w b' w') :
    b'.HandsOn p.component := by
  obtain ⟨given, w₁, c, w₂, b₁, w₃, branches, w₄, hg, hc, hopen, -, hy⟩ :=
    of_yields_publishSubscribe hy
  obtain ⟨closed, -, rfl⟩ := Builder.of_yields_finishFanOut hy
  obtain ⟨hle, hknows⟩ := hf.knows_fanOut hg hc
  rcases Builder.of_yields_openFanOut hopen with ⟨hkey, -, -⟩ | ⟨-, hopen⟩
  · obtain ⟨d, hd, -⟩ := Builder.currentKey?_eq_some.1 hkey
    cases hcurrent _ hd
  · refine Builder.HandsOn.extends ?_ (b₁.extends_absorb closed)
      (Registry.subset_foldl_extend _ _) rfl
    refine h.channel (hf.later hle) ?_ (.inr ?_) hopen
    · rintro _ ⟨⟩
      exact hknows
    · exact nofun

/-- A call that appends something binds the output that is pending to what it
appends, or to what that reads, where the flow stands on nothing that is a
target already. -/
theorem handsOn_of_yields (hf : s.Finds b w) (h : b.Awaits p)
    (hcurrent : ∀ source ∈ b.cursor.channel, source.target? = none)
    (ha : s.appends b = true) (hy : Yields (s.assemble b) w b' w') :
    b'.HandsOn p.component := by
  cases s with
  | channel => exact handsOn_channel hf h ha hy
  | endpoint => exact handsOn_endpoint hf h hy
  | wireTap plan destination =>
      obtain ⟨opening, w₁, b₁, c, w₂, flow, w₃, tap, -, ht, -, hy⟩ :=
        of_yields_wireTap hy
      obtain ⟨closed, _, -, -, rfl⟩ := Builder.of_yields_finishTap hy
      exact (h.tapPoint hcurrent ht).extends (b₁.extends_holding closed)
        (List.Subset.refl _) rfl
  | intercept plan =>
      obtain ⟨interceptor, w₁, -, hy⟩ := of_yields_intercept hy
      obtain ⟨c, _, ht, -⟩ := Builder.of_yields_intercept hy
      exact h.tapPoint hcurrent ht
  | route | routeToRecipients => exact handsOn_routed hf h rfl hy
  | publishSubscribe => exact handsOn_publishSubscribe hf h hcurrent hy
  | scatterGather => exact handsOn_scatterGather hf h hy
  | withId | withSession | fresh | faulty => cases ha

end Step

/-! ## Calls that append nothing -/

/-- Calls that append nothing lead from one builder to the other. -/
inductive Builder.Lingers : Builder → Workshop → Builder → Workshop → Prop
  | here (b : Builder) (w : Workshop) : Lingers b w b w
  | call {s : Step} {b b₁ b' : Builder} {w w₁ w' : Workshop} : s.isFresh = false →
      s.appends b = false → Yields (s.assemble b) w b₁ w₁ → Lingers b₁ w₁ b' w' →
      Lingers b w b' w'

section

variable {s : Step} {b b₁ b' : Builder} {p : PendingOutput} {w w₁ w' : Workshop}

/-- A call that appends nothing leaves what stands in the flow and what is
pending as they were, and leaves no target for the flow to stand on. -/
theorem Step.keeps_of_idle (hfresh : s.isFresh = false) (ha : s.appends b = false)
    (hcurrent : ∀ source ∈ b.cursor.channel, source.target? = none)
    (h : Yields (s.assemble b) w b' w') :
    b'.registry = b.registry ∧ b'.cursor.pending = b.cursor.pending ∧
    b'.cursor.deferred = b.cursor.deferred ∧
    w.nextComponent ≤ w'.nextComponent ∧ ∀ source ∈ b'.cursor.channel,
      source.target? = none := by
  cases s with
  | channel plan =>
      cases plan with
      | channel | named => cases ha
      | fixedSubscriber id =>
          obtain ⟨source, w₁, hm, hy⟩ := of_yields_channel h
          obtain ⟨rfl, rfl⟩ :=
            yields_pure.1 (by simpa only [SourcePlan.make] using hm)
          obtain ⟨b₁, hb, rfl⟩ := Builder.of_yields_channel hy
          have hnone : b.cursor.channel = none := by simpa [appends] using ha
          obtain ⟨-, rfl, rfl⟩ := hb.resolve_left fun hne => hne.1 hnone
          refine ⟨rfl, rfl, rfl, Nat.le_refl _, fun source hsource => ?_⟩
          obtain rfl :=
            Option.some.inj ((Builder.channel_appended _ _).symm.trans hsource)
          rfl
  | withId id =>
      rcases of_yields_withId h with ⟨-, rfl, rfl⟩ | ⟨-, rfl, rfl⟩
      · exact ⟨rfl, rfl, rfl, Nat.le_refl _, hcurrent⟩
      · exact ⟨rfl, rfl, rfl, Nat.le_refl _, hcurrent⟩
  | withSession session =>
      rcases of_yields_withSession h with ⟨-, rfl, rfl⟩ | ⟨-, rfl, _, -, rfl⟩
      · exact ⟨rfl, rfl, rfl, Nat.le_refl _, hcurrent⟩
      · exact ⟨rfl, rfl, rfl, Nat.le_refl _, hcurrent⟩
  | fresh => cases hfresh
  | faulty cause =>
      rw [assemble, Builder.yields_guarded] at h
      exact absurd h not_yields_throw
  | endpoint | wireTap | intercept | route | routeToRecipients | publishSubscribe
  | scatterGather =>
      cases ha

/-- However long a flow lingers, the next call that appends something binds
the output that was pending. -/
theorem Builder.Lingers.handsOn (h : b.Lingers w b₁ w₁) (hp : b.Awaits p)
    (hgiven : ∀ x ∈ b.components, x.key.number < w.nextComponent)
    (hcurrent : ∀ source ∈ b.cursor.channel, source.target? = none)
    (hknown : ∀ c ∈ s.brought, b₁.Knows w₁ c) (ha : s.appends b₁ = true)
    (hy : Yields (s.assemble b₁) w₁ b' w') : b'.HandsOn p.component := by
  induction h with
  | here => exact Step.handsOn_of_yields ⟨hgiven, hknown⟩ hp hcurrent ha hy
  | call hfresh hidle hstep _ ih =>
      obtain ⟨hregistry, hpending, hdeferred, hle, hcurrent⟩ :=
        Step.keeps_of_idle hfresh hidle hcurrent hstep
      refine ih ⟨hpending ▸ hp.pending, hregistry ▸ hp.stands⟩
        (fun x hx => ?_) hcurrent hknown ha hy
      rw [Builder.components_eq, hregistry, hdeferred, ← Builder.components_eq]
        at hx
      exact Nat.lt_of_lt_of_le (hgiven x hx) hle

end

end FlowAssembly
