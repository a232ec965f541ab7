import FlowAssembly.Proofs.Mentions

/-!
# Putting a flow in order

Each operation of a builder puts the points that it deals with behind those
that are in order already: an endpoint behind the channel that it reads and
ahead of all that it sends to, a bridge behind the last channel of a branch,
and the channel that branches meet on behind all of them. If the branches meet
on a channel that one of them ended on, that branch comes last, whatever its
place among the branches is.

Operations are followed with no regard to whether a point stands in the order
once. That it does is the account of points, which is kept beside.
-/

namespace FlowAssembly

open Assembly Workshop

variable {taps : Interceptions} {order points : List Point} {b b' : Builder}
  {w w₁ w' : Workshop}

/-! ## Endpoints -/

/-- What an endpoint is to read is in order, behind whatever is pending. A
channel that was made for it is the only point that is made. -/
structure ResolvedInput.Charted (taps : Interceptions) (b : Builder)
    (order made : List Point) (input : ResolvedInput) :
    Prop where
  target : input.target.point ∈ order ++ made
  pending : ∀ output ∈ b.cursor.pending,
    Precedes (order ++ made) (.key output.component) input.target.point
  made : ∀ c ∈ input.made, taps c.key = [] ∧ .key c.key ∈ made

theorem Builder.Charted.resolveInput {handler : Handler} {input : ResolvedInput}
    (h : b.Charted taps order) (hblank : taps.Blank w.nextComponent)
    (hy : Yields (resolveInput b.cursor.channel handler) w input w') :
    ∃ made, w.Places [] made [] w' ∧ input.Charted taps b order made := by
  have hcurrent : ∀ target source, b.cursor.channel = some source →
      source.target? = some target →
      ResolvedInput.Charted taps b order [] ⟨target, none⟩ :=
    fun target source hsource htarget =>
      { target := by
          rw [List.append_nil]
          exact (h.current source hsource target htarget).1.mem
        pending := fun output ho => by
          rw [(h.current source hsource target htarget).2] at ho
          cases ho
        made := fun c hc => by cases hc }
  rcases of_yields_resolveInput hy
    with ⟨c, hc, rfl, rfl⟩ | ⟨name, hc, rfl, rfl⟩ | ⟨c, -, rfl, hk, rfl⟩
  · exact ⟨[], .idle rfl rfl, hcurrent _ _ hc rfl⟩
  · exact ⟨[], .idle rfl rfl, hcurrent _ _ hc rfl⟩
  · have hmade : .key c.key ∈ [Point.key ⟨w.nextComponent⟩] :=
      hk ▸ List.mem_singleton_self _
    refine ⟨[.key ⟨w.nextComponent⟩], .made rfl rfl, List.mem_append_right _ hmade,
      fun output ho => ?_, fun made hm => ?_⟩
    · exact precedes_append (h.pending output ho) hmade
    · obtain rfl := Option.some.inj hm
      exact ⟨hk ▸ hblank _ (Nat.le_refl _), hmade⟩

theorem Component.Charted.bound {x : Component} {target : Target}
    (h : x.Charted taps order)
    (hp : ∀ output ∈ b.cursor.pending,
      Precedes order (.key output.component) target.point) :
    (b.bound target x).Charted taps order := by
  unfold Builder.bound
  cases ho : b.cursor.pending with
  | none => exact h
  | some output => exact h.boundTo (hp output ho)

/-- An endpoint stands behind what it reads, and ahead of all that it sends
to. -/
theorem Builder.Charted.wired {made all : List Point} {input : ResolvedInput}
    {sides : List Registry} {e : Endpoint} (h : b.Charted taps order)
    (hi : input.Charted taps b order made) (hin : e.input = input.target)
    (hout : e.output = none) (hs : (order ++ made ++ [Point.key e.key]).Sublist all)
    (hroutes : ∀ t ∈ e.handler.routeTargets, Precedes all (.key e.key) t.point)
    (hsides : ∀ r ∈ sides, ∀ x ∈ r.components, x.Charted taps all) :
    (b.wired input sides e).Charted taps all := by
  have hread : (order ++ made).Sublist all :=
    (List.sublist_append_left _ _).trans hs
  have hold : order.Sublist all := (List.sublist_append_left _ _).trans hread
  have hcharted : (Component.endpoint e).Charted taps all := by
    refine Component.charted_endpoint ?_ hout hroutes
    rw [hin]
    exact (precedes_append hi.target (List.mem_singleton_self _)).mono hs
  refine ⟨fun x hx => ?_, fun source hsource => ?_, fun output ho => ?_⟩
  · have hx := (b.condenses_wired input sides e).subperm.subset hx
    simp only [List.mem_append, List.mem_map, List.mem_flatMap, List.mem_singleton]
      at hx
    rcases hx with (⟨y, hy, rfl⟩ | rfl) | ⟨r, hr, hx⟩
    · refine Component.Charted.bound ?_ fun output ho =>
        (hi.pending output ho).mono hread
      rcases hy with (hy | ⟨r, hr, hy⟩) | hy
      · exact (h.components y (b.components_eq ▸ List.mem_append_left _ hy)).mono
          hold
      · exact hsides r hr y hy
      · obtain ⟨c, hc, rfl⟩ := List.mem_map.1 hy
        obtain ⟨hnone, hk⟩ := hi.made c (Option.mem_toList.1 hc)
        exact Component.charted_channel hnone
          (hread.subset (List.mem_append_right _ hk))
    · exact hcharted
    · exact (h.components x (b.components_eq ▸
        List.mem_append_right _ (List.mem_flatMap.2 ⟨r, hr, hx⟩))).mono hold
  · rw [b.cursor_wired input sides e] at hsource
    cases hsource
  · rw [b.cursor_wired input sides e] at ho
    dsimp only at ho
    split at ho
    · obtain rfl := Option.some.inj ho
      exact hcharted.key
    · cases ho

theorem Builder.Charted.attach {spec : EndpointSpec} (h : b.Charted taps order)
    (hblank : taps.Blank w.nextComponent) (hy : Yields (b.attach spec) w b' w') :
    ∃ made e, w.Places [] (made ++ [.key e]) [] w' ∧ b'.cursor.channel = none ∧
      (spec.handler.producesReplies = false → b'.cursor.pending = none) ∧
      (∀ output ∈ b'.cursor.pending, output.component = e) ∧
      ∀ all, (order ++ made ++ [Point.key e]).Sublist all →
        (∀ t ∈ spec.handler.routeTargets, Precedes all (.key e) t.point) →
        b'.Charted taps all := by
  obtain ⟨input, w₁, hi, hw⟩ := of_yields_attach hy
  obtain ⟨made, hmade, hinput⟩ := h.resolveInput hblank hi
  have hplain := plain_of_wire hw
  obtain ⟨e, rfl, hfresh, hhandler, hin, hnext⟩ := wired_of_yields hw
  have hplaced : w₁.Places [] [.key e.key] [] w' := hfresh.key ▸ .made hnext hplain
  refine ⟨made, e.key, hmade.trans hplaced, by rw [cursor_wired], fun hp => ?_,
    fun output ho => ?_, fun all hs hroutes => ?_⟩
  · rw [cursor_wired]
    exact if_neg (by rw [hhandler, hp]; exact Bool.false_ne_true)
  · rw [cursor_wired] at ho
    dsimp only at ho
    split at ho
    · obtain rfl := Option.some.inj ho
      rfl
    · cases ho
  · rw [← hhandler] at hroutes
    exact h.wired hinput hin hfresh.output hs hroutes fun r hr => by cases hr

/-- A bridge sends to nothing by itself. -/
theorem Builder.Charted.bridge (h : b.Charted taps order)
    (hblank : taps.Blank w.nextComponent) (hy : Yields b.bridge w b' w') :
    ∃ more, w.Places [] more [] w' ∧ b'.cursor.channel = none ∧
      b'.Charted taps (order ++ more) := by
  obtain ⟨made, e, hplaces, hnone, -, -, hcharted⟩ :=
    h.attach (by exact hblank) (of_yields_bridge hy)
  refine ⟨made ++ [.key e], ?_, hnone,
    hcharted _ (by rw [List.append_assoc]) fun t ht => by cases ht⟩
  exact ⟨hplaces.le, hplaces.count, hplaces.taps⟩

/-! ## Channels -/

theorem Builder.components_subset_appended {source : ChannelSource} {x : Component}
    (hx : x ∈ (b.appended source).components) :
    (∃ y ∈ b.components, x = b.boundBy source y ∨ x = y) ∨
    ∃ c, source = .channel c ∧ x = .channel c := by
  have hx := (b.condenses_appended source).subperm.subset hx
  rw [components_eq]
  rcases List.mem_append.1 hx with hx | hx
  · obtain ⟨y, hy, rfl⟩ := List.mem_map.1 hx
    rcases List.mem_append.1 hy with hy | hy
    · exact .inl ⟨y, List.mem_append_left _ hy, .inl rfl⟩
    · cases source with
      | channel c =>
          obtain rfl := List.mem_singleton.1 hy
          exact .inr ⟨c, rfl, b.bound_channel _ c⟩
      | named | fixedSubscriber => cases hy
  · exact .inl ⟨x, List.mem_append_right _ hx, .inr rfl⟩

/-- What a flow goes on through stands behind it, and what is pending leads
there. -/
theorem Builder.Charted.appended {source : ChannelSource} (h : b.Charted taps order)
    (hs : ∀ target ∈ source.target?, target.Charted taps points) :
    (b.appended source).Charted taps (order ++ points) := by
  have hbefore := h.mono (List.sublist_append_left order points)
  refine ⟨fun x hx => ?_, fun source' hsource target ht => ?_, fun output ho => ?_⟩
  · rcases components_subset_appended hx with ⟨y, hy, rfl | rfl⟩ | ⟨c, rfl, rfl⟩
    · unfold boundBy
      cases ht : source.target? with
      | none => exact hbefore.components y hy
      | some target =>
          exact (hbefore.components y hy).bound fun output ho =>
            precedes_append (h.pending output ho) (hs target ht).mem
    · exact hbefore.components x hy
    · exact (hs (.channel c) rfl).mono (List.sublist_append_right _ _)
  · rw [channel_appended] at hsource
    obtain rfl := Option.some.inj hsource
    exact ⟨(hs target ht).mono (List.sublist_append_right _ _),
      pending_appended _ ht⟩
  · cases ht : source.target? with
    | some target =>
        rw [pending_appended _ ht] at ho
        cases ho
    | none =>
        refine hbefore.pending output ?_
        cases source with
        | fixedSubscriber id => exact ho
        | channel | named => cases ht

theorem Builder.Charted.channel {source : ChannelSource} (h : b.Charted taps order)
    (hblank : taps.Blank w.nextComponent)
    (hs : ∀ target ∈ source.target?, target.Charted taps points)
    (hy : Yields (b.channel source) w b' w') :
    ∃ more, w.Places [] more [] w' ∧ b'.Charted taps (order ++ more ++ points) := by
  obtain ⟨b₁, ⟨-, hbridge⟩ | ⟨-, rfl, rfl⟩, rfl⟩ := of_yields_channel hy
  · obtain ⟨more, hplaces, -, hcharted⟩ := h.bridge hblank hbridge
    exact ⟨more, hplaces, hcharted.appended hs⟩
  · refine ⟨[], .idle rfl rfl, ?_⟩
    rw [List.append_nil]
    exact h.appended hs

/-- The channel that interceptors are attached to is in order. -/
theorem Builder.Charted.tapPoint {attempted : String} {c : Channel}
    (h : b.Charted taps order) (hblank : taps.Blank w.nextComponent)
    (hy : Yields (b.tapPoint attempted) w (b', c) w') :
    ∃ made, w.Places [] made [] w' ∧ b'.Charted taps (order ++ made) ∧
      .key c.key ∈ order ++ made := by
  rcases of_yields_tapPoint hy with ⟨hc, rfl, rfl⟩ | ⟨-, rfl, hk, rfl⟩
  · refine ⟨[], .idle rfl rfl, ?_⟩
    rw [List.append_nil]
    exact ⟨h, (h.current _ hc _ rfl).1.key⟩
  · have hmade : .key c.key ∈ [Point.key ⟨w.nextComponent⟩] :=
      hk ▸ List.mem_singleton_self _
    refine ⟨[.key ⟨w.nextComponent⟩], .made rfl rfl, h.appended fun target ht => ?_,
      List.mem_append_right _ hmade⟩
    obtain rfl := Option.some.inj ht
    exact Component.charted_channel (hk ▸ hblank _ (Nat.le_refl _)) hmade

/-! ## Branches -/

theorem Builder.Charted.branch {seed : Channel} (b : Builder)
    (h : (Component.channel seed).Charted taps order) :
    (b.branch seed).Charted taps order where
  components x hx := by
    obtain rfl := List.mem_singleton.1 hx
    exact h
  current source hsource target ht := by
    obtain rfl := Option.some.inj hsource
    obtain rfl := Option.some.inj ht
    exact ⟨h, rfl⟩
  pending output ho := by cases ho

theorem Builder.Charted.toBranch (h : b.Charted taps order) :
    b.toBranch.Charted taps order where
  components x hx := h.components x (b.condenses_flushDeferred.subperm.subset hx)
  channel c hc := by
    simp only [Builder.toBranch] at hc
    split at hc
    · cases hc
    · next c' hcurrent =>
        obtain rfl := Ending.channel.inj hc
        exact (h.current _ hcurrent _ rfl).1
    · cases hc
  pending output ho := by
    simp only [Builder.toBranch] at ho
    split at ho
    · next output' hpending =>
        obtain rfl := Ending.pending.inj ho
        exact h.pending _ hpending
    · cases ho
    · cases ho

theorem Builder.Charted.intoBranch {br : Branch} (h : b.Charted taps order)
    (hy : Yields b.intoBranch w br w') :
    br.Charted taps order ∧ w.Places [] [] [] w' := by
  have hplain : w.Plain w' := (leaves_intoBranch b.discard_plain).of_yields hy
  obtain ⟨rfl, hnext⟩ := eq_toBranch hy
  exact ⟨h.toBranch, .idle hnext hplain⟩

/-- The steps put whatever they deal with behind what is in order. -/
def Charts (taps : Interceptions) (steps : List Step) : Prop :=
  ∀ {b b' : Builder} {w w' : Workshop} {order : List Point},
    taps.Blank w.nextComponent → b.Charted taps order →
    Yields (assembleSteps b steps) w b' w' →
    ∃ more, w.Places (mentions taps steps) more (order ++ more) w' ∧
      b'.Charted taps (order ++ more)

theorem charted_runBranch {flow : Channel × List Step} {br : Branch}
    (hf : Charts taps flow.2) (hblank : taps.Blank w.nextComponent)
    (hseed : (Component.channel flow.1).Charted taps order)
    (hy : Yields (b.runBranch flow) w br w') :
    ∃ more, w.Places (mentions taps flow.2) more (order ++ more) w' ∧
      br.Charted taps (order ++ more) := by
  rw [Builder.runBranch, yields_bind] at hy
  obtain ⟨nested, w₁, hsteps, hend⟩ := hy
  obtain ⟨more, hplaces, hcharted⟩ := hf hblank (.branch b hseed) hsteps
  obtain ⟨hbr, hidle⟩ := hcharted.intoBranch hend
  have hall := hplaces.trans (hidle.mono (List.nil_sublist _))
  rw [List.append_nil, List.append_nil] at hall
  exact ⟨more, hall, hbr⟩

/-- The branches of a step stand one behind the other. -/
theorem charted_runBranches {flows : List (Channel × List Step)}
    {branches : List Branch} (hf : ∀ flow ∈ flows, Charts taps flow.2)
    (hblank : taps.Blank w.nextComponent)
    (hseeds : ∀ flow ∈ flows, (Component.channel flow.1).Charted taps order)
    (h : YieldsAll b.runBranch w flows branches w') :
    ∃ more,
      w.Places (flows.flatMap fun flow => mentions taps flow.2) more
        (order ++ more) w' ∧
      ∀ br ∈ branches, br.Charted taps (order ++ more) := by
  induction h with
  | nil w => exact ⟨[], .idle rfl rfl, fun br hbr => by cases hbr⟩
  | @cons w w₁ w' flow br flows branches hy _ ih =>
      obtain ⟨more, hplaces, hbr⟩ := charted_runBranch (hf flow List.mem_cons_self)
        hblank (hseeds flow List.mem_cons_self) hy
      obtain ⟨more', hplaces', hbranches⟩ := ih
        (fun flow hm => hf flow (List.mem_cons_of_mem _ hm))
        (hblank.mono hplaces.le) fun flow hm =>
          hseeds flow (List.mem_cons_of_mem _ hm)
      have hone : (order ++ more).Sublist (order ++ (more ++ more')) := by
        rw [← List.append_assoc]
        exact List.sublist_append_left _ _
      have hothers : (order ++ more').Sublist (order ++ (more ++ more')) :=
        (List.Sublist.refl order).append (List.sublist_append_right more more')
      refine ⟨more ++ more', (hplaces.mono hone).trans (hplaces'.mono hothers),
        fun br' hbr' => ?_⟩
      rcases List.mem_cons.1 hbr' with rfl | hbr'
      · exact hbr.mono hone
      · exact (hbranches br' hbr').mono hothers

/-- Subscribers all start at one channel. -/
theorem charted_runSubscribers {c : Channel} {subscribers : List (List Step)}
    {branches : List Branch} (hf : ∀ steps ∈ subscribers, Charts taps steps)
    (hblank : taps.Blank w.nextComponent)
    (hc : (Component.channel c).Charted taps order)
    (h : YieldsAll b.runBranch w (subscribers.map fun steps => (c, steps)) branches
      w') :
    ∃ more, w.Places (subscribers.flatMap (mentions taps)) more (order ++ more) w' ∧
      ∀ br ∈ branches, br.Charted taps (order ++ more) := by
  have hflows : ∀ flow ∈ subscribers.map fun steps => (c, steps),
      flow.2 ∈ subscribers ∧ flow.1 = c := by
    intro flow hm
    obtain ⟨steps, hs, rfl⟩ := List.mem_map.1 hm
    exact ⟨hs, rfl⟩
  obtain ⟨more, hplaces, hbranches⟩ := charted_runBranches
    (fun flow hm => hf _ (hflows flow hm).1) hblank
    (fun flow hm => (hflows flow hm).2 ▸ hc) h
  rw [List.flatMap_map] at hplaces
  exact ⟨more, hplaces, hbranches⟩

/-! ## The ends of branches -/

theorem Branch.Charted.addBridge {br br' : Branch} {parent : Builder}
    {input : Channel} {key : ComponentKey} (h : br.Charted taps order)
    (hin : .key input.key ∈ order)
    (hy : Yields (br.addBridge parent input) w (br', key) w') :
    w.Places [] [.key key] [] w' ∧ ∀ x ∈ br'.registry.components,
      x.Charted taps (order ++ [.key key]) := by
  have hplain := plain_of_addBridge hy
  obtain ⟨e, rfl, rfl, hfresh, hhandler, hinput, hnext⟩ := linked_of_yields hy
  refine ⟨hfresh.key ▸ .made hnext hplain, fun x hx => ?_⟩
  rcases List.mem_append.1
    ((br.registry.condenses_add (.endpoint e)).subperm.subset hx) with hx | hx
  · exact (h.components x hx).mono (List.sublist_append_left _ _)
  · obtain rfl := List.mem_singleton.1 hx
    refine Component.charted_endpoint ?_ hfresh.output fun t ht => ?_
    · rw [hinput]
      exact precedes_append hin (List.mem_singleton_self _)
    · rw [Handler.routeTargets, hhandler] at ht
      cases ht

/-- Branches that are left open get their bridges behind all of them. -/
theorem charted_leaveOpen {parent : Builder} {branches closed : List Branch}
    (hbr : ∀ br ∈ branches, br.Charted taps order)
    (h : YieldsAll (fun br => br.leaveOpen parent) w branches closed w') :
    ∃ more, w.Places [] more [] w' ∧
      ∀ br ∈ closed, ∀ x ∈ br.registry.components,
        x.Charted taps (order ++ more) := by
  induction h with
  | nil w => exact ⟨[], .idle rfl rfl, fun br hbr => by cases hbr⟩
  | @cons w w₁ w' br br' branches closed hy _ ih =>
      obtain ⟨more, hplaces, hothers⟩ :=
        ih fun br hm => hbr br (List.mem_cons_of_mem _ hm)
      have hfirst := hbr br List.mem_cons_self
      obtain ⟨link, hlink, hone⟩ : ∃ link, w.Places [] link [] w₁ ∧
          ∀ x ∈ br'.registry.components, x.Charted taps (order ++ link) := by
        rcases Branch.of_yields_leaveOpen hy
          with ⟨-, rfl, rfl⟩ | ⟨last, key, hlast, hadd⟩
        · exact ⟨[], .idle rfl rfl,
            fun x hx => (hfirst.components x hx).mono
              (List.sublist_append_left _ _)⟩
        · exact ⟨_, hfirst.addBridge (hfirst.channel last hlast).key hadd⟩
      refine ⟨link ++ more, hlink.trans hplaces, fun br'' hm x hx => ?_⟩
      rcases List.mem_cons.1 hm with rfl | hm
      · exact (hone x hx).mono
          ((List.Sublist.refl order).append (List.sublist_append_left link more))
      · exact (hothers br'' hm x hx).mono
          ((List.Sublist.refl order).append (List.sublist_append_right link more))

/-- A branch that converges leads to the channel that comes behind it. -/
theorem Branch.Charted.converge {br br' : Branch} {parent : Builder}
    {merge : Channel} (h : br.Charted taps order)
    (hy : Yields (br.converge parent merge) w br' w') :
    ∃ more, w.Places [] more [] w' ∧
      ∀ all, (order ++ more ++ [Point.key merge.key]).Sublist all →
        ∀ x ∈ br'.registry.components, x.Charted taps all := by
  have hmerge : Point.key merge.key ∈ [Point.key merge.key] :=
    List.mem_singleton_self _
  rcases of_yields_converge hy
    with ⟨output, ho, rfl, rfl⟩ | ⟨-, rfl, rfl⟩ | ⟨last, -, -, rfl, rfl⟩ | ⟨last,
      linked, key, hlast, -, hadd, rfl⟩
  · refine ⟨[], .idle rfl rfl, fun all hs x hx => ?_⟩
    rw [List.append_nil] at hs
    rw [Registry.components_bindOutput] at hx
    obtain ⟨y, hy, rfl⟩ := List.mem_map.1 hx
    exact ((h.components y hy).mono
      ((List.sublist_append_left _ _).trans hs)).boundTo
      ((precedes_append (h.pending output ho) hmerge).mono hs)
  · exact ⟨[], .idle rfl rfl, fun all hs x hx => (h.components x hx).mono (by
      rw [List.append_nil] at hs
      exact (List.sublist_append_left _ _).trans hs)⟩
  · exact ⟨[], .idle rfl rfl, fun all hs x hx => (h.components x hx).mono (by
      rw [List.append_nil] at hs
      exact (List.sublist_append_left _ _).trans hs)⟩
  · obtain ⟨hplaces, hlinked⟩ := h.addBridge (h.channel last hlast).key hadd
    refine ⟨[.key key], hplaces, fun all hs x hx => ?_⟩
    rw [Registry.components_bindOutput] at hx
    obtain ⟨y, hy, rfl⟩ := List.mem_map.1 hx
    exact ((hlinked y hy).mono ((List.sublist_append_left _ _).trans hs)).boundTo
      ((precedes_append (List.mem_append_right _ (List.mem_singleton_self _))
          hmerge).mono hs)

theorem charted_converge {parent : Builder} {merge : Channel}
    {branches closed : List Branch} (hbr : ∀ br ∈ branches, br.Charted taps order)
    (h : YieldsAll (fun br => br.converge parent merge) w branches closed w') :
    ∃ more, w.Places [] more [] w' ∧
      ∀ all, (order ++ more ++ [Point.key merge.key]).Sublist all →
        ∀ br ∈ closed, ∀ x ∈ br.registry.components, x.Charted taps all := by
  induction h with
  | nil w => exact ⟨[], .idle rfl rfl, fun _ _ br hbr => by cases hbr⟩
  | @cons w w₁ w' br br' branches closed hy _ ih =>
      obtain ⟨more, hplaces, hothers⟩ :=
        ih fun br hm => hbr br (List.mem_cons_of_mem _ hm)
      obtain ⟨link, hlink, hone⟩ := (hbr br List.mem_cons_self).converge hy
      refine ⟨link ++ more, hlink.trans hplaces, fun all hs br'' hm x hx => ?_⟩
      rcases List.mem_cons.1 hm with rfl | hm
      · refine hone all (List.Sublist.trans ?_ hs) x hx
        exact ((List.Sublist.refl order).append
          (List.sublist_append_left link more)).append (List.Sublist.refl _)
      · refine hothers all (List.Sublist.trans ?_ hs) br'' hm x hx
        exact ((List.Sublist.refl order).append
          (List.sublist_append_right link more)).append (List.Sublist.refl _)

end FlowAssembly
