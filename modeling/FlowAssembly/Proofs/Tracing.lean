import FlowAssembly.Proofs.Growth

/-!
# The order that a call makes

What each kind of call does to the sketch of its builder, as far as order
goes: nothing is asked of the parts. A call that goes on from a channel first
puts a reader behind it (`Sketch.Closes`), and what it registers of its own
goes behind that: the branches of a router with the channel that they meet on,
or those of a scatter with the channels on either side.
-/

namespace FlowAssembly

open Assembly Workshop

namespace Sketch

/-- The sketch once the tip has a reader, or as it is where there is none. -/
inductive Closes (s : Sketch) : Sketch → Prop
  | same : s.tip = .vacant → Closes s s
  | read {reader : List Mark} : Reader s.tip.key? reader →
      (s.wired [] reader).keys.Nodup → Closes s (s.wired [] reader)

namespace Closes

variable {s s₁ : Sketch}

theorem vacant (h : s.Closes s₁) : s₁.tip = .vacant := by
  cases h with
  | same hv => exact hv
  | read hr hn => rfl

theorem kept (h : s.Closes s₁) : s.base <+: s₁.base := by
  cases h with
  | same hv => exact List.prefix_rfl
  | read hr hn => exact base_prefix_wired s [] _

theorem sound (h : s.Closes s₁) (hs : s.Sound) : s₁.Sound := by
  cases h with
  | same hv => exact hs
  | read hr hn => exact hs.wired (List.forall_mem_nil _) hr hn

end Closes

end Sketch

namespace Builder

variable {b b₁ b' : Builder} {s s₁ : Sketch} {w w₁ w₂ w₃ w' : Workshop}

theorem Traced.closes_attach (hd : b.Traced s) (hr : w.Room s.keys)
    {spec : EndpointSpec} (hy : Yields (b.attach spec) w b₁ w') :
    ∃ s₁, b₁.Traced s₁ ∧ s.Closes s₁ ∧ w.Spent s.keys w' s₁.keys := by
  obtain ⟨reader, hreader, htraced, hspent⟩ := hd.attach hr hy
  have hspends : w.Spent s.keys w' (s.wired [] reader).keys := by
    refine ⟨fun k => ?_, hspent.supply⟩
    have hk := hspent.count k
    rw [Sketch.keys_wired]
    simp only [List.flatten_nil, Mark.keys_nil, List.count_nil] at hk ⊢
    omega
  exact ⟨_, htraced, .read hreader (hr.of_spent hspends).nodup, hspends⟩

/-- Neither the registry nor the cursor has changed. -/
theorem Traced.of_same (hd : b.Traced s) (hregistry : b'.registry = b.registry)
    (hcursor : b'.cursor = b.cursor) :
    b'.Traced s := by
  have hcurrent : b'.currentKey? = b.currentKey? := by
    rw [Builder.currentKey?, Builder.currentKey?, hcursor]
  refine ⟨?_, ?_, ?_, ?_, hd.behind, hd.vacant⟩
  · rw [hregistry, hd.marks]
  · rw [hcursor, hd.taps]
  · rw [hcurrent, hd.current]
  · rw [hcursor]
    exact hd.pending

/-- Before a channel is appended, the one that is current gets a bridge. -/
theorem Traced.closes_bridge (hd : b.Traced s) (hr : w.Room s.keys)
    (hy : b.cursor.channel ≠ none ∧ Yields b.bridge w b₁ w' ∨
      b.cursor.channel = none ∧ b₁ = b ∧ w' = w) :
    ∃ s₁, b₁.Traced s₁ ∧ s.Closes s₁ ∧ w.Spent s.keys w' s₁.keys := by
  rcases hy with ⟨-, hy⟩ | ⟨hc, rfl, rfl⟩
  · obtain ⟨s₁, htraced, hcloses, hspent⟩ :=
      hd.closes_attach (w := { w with nextHandler := w.nextHandler + 1 }) hr
        (of_yields_bridge hy)
    exact ⟨s₁, htraced, hcloses, hspent.congr rfl⟩
  · refine ⟨s, hd, .same ?_, .refl _ _⟩
    rw [← Tip.key?_eq_none, ← hd.current, currentKey?_eq_none]
    simp [hc]

/-- A channel, a name or a marker behind whatever the flow stands on. -/
theorem Traced.channel (hd : b.Traced s) {source : ChannelSource}
    (hr : ∀ c, source = .channel c → w.Room (s.keys ++ [c.key]))
    (hr₀ : w.Room s.keys) (hy : Yields (b.channel source) w b' w') :
    ∃ s₁, s.Closes s₁ ∧ s₁.taps = [] ∧
      ((∃ c, source = .channel c ∧ b'.Traced (s₁.standing c.key) ∧
          w.Spent (s.keys ++ [c.key]) w' (s₁.standing c.key).keys) ∨
        ((∀ c, source ≠ .channel c) ∧ b'.Traced s₁ ∧
          w.Spent s.keys w' s₁.keys)) := by
  obtain ⟨b₁, hb, rfl⟩ := of_yields_channel hy
  obtain ⟨s₁, htraced, hcloses, hspent⟩ := hd.closes_bridge hr₀ hb
  refine ⟨s₁, hcloses, htraced.vacant hcloses.vacant, ?_⟩
  have hfree : ∀ c, source = .channel c → s₁.keys.count c.key = 0 := by
    intro c hc
    have hroom := ((hr c hc).of_spent (hspent.append [c.key])) c.key
    simp only [List.count_append, List.count_singleton_self] at hroom
    omega
  rcases htraced.appended hcloses.vacant hfree
    with ⟨c, hc, htraced'⟩ | ⟨hc, htraced'⟩
  · refine .inl
      ⟨c, hc, htraced',
        (hspent.append [c.key]).trans ⟨fun k => ?_, fun k => Nat.le_refl _⟩⟩
    refine Nat.le_of_eq ?_
    rw [Sketch.keys_standing hcloses.vacant (htraced.vacant hcloses.vacant),
      List.count_append]
  · exact .inr ⟨hc, htraced', hspent⟩

/-- A tap point is the channel that the flow stands on, or one that is made. -/
theorem Traced.tapPoint (hd : b.Traced s) {attempted : String} {c : Channel}
    (hr : w.Room s.keys) (hy : Yields (b.tapPoint attempted) w (b', c) w') :
    ∃ s', b'.Traced s' ∧ w.Spent s.keys w' s'.keys ∧ s'.tip ≠ .vacant ∧
      (s' = s ∨ s.tip = .vacant ∧ s' = s.standing c.key) := by
  rcases of_yields_tapPoint hy with ⟨hc, rfl, rfl⟩ | ⟨hc, rfl, hk, rfl⟩
  · refine ⟨s, hd, .refl _ _, fun hv => ?_, .inl rfl⟩
    have hcurrent := hd.current
    rw [currentKey?_eq_some.2 ⟨c, hc, rfl⟩, hv] at hcurrent
    cases hcurrent
  · have hv : s.tip = .vacant := by
      rw [← Tip.key?_eq_none, ← hd.current, currentKey?_eq_none]
      simp [hc]
    have hfree : ∀ c', ChannelSource.channel c = .channel c' →
        s.keys.count c'.key = 0 := by
      rintro c' ⟨⟩
      rw [hk]
      exact hr.next
    rcases hd.appended hv hfree with ⟨c', hc', htraced⟩ | ⟨hc', -⟩
    · obtain rfl : c = c' := by simpa using hc'
      refine ⟨_, htraced, ?_, by simp [Sketch.standing], .inr ⟨hv, rfl⟩⟩
      have hspent := (Spent.next w).prepend s.keys
      rw [List.append_nil] at hspent
      refine hspent.trans ⟨fun k => ?_, fun k => Nat.le_refl _⟩
      refine Nat.le_of_eq ?_
      rw [Sketch.keys_standing hv (hd.vacant hv), hk, List.count_append]
    · exact absurd rfl (hc' c)

/-- Parts that are registered behind everything. -/
theorem traced_extended {parts : List (List Mark)}
    (hmarks : b.registry.marks = s.base ++ parts.flatten)
    (hheld : b.cursor.deferred = []) (hcurrent : b.currentKey? = none) :
    b.Traced (s.extended parts) where
  marks := by
    rw [hmarks]
    simp [Sketch.extended, Sketch.marks, Tip.marks]
  taps := by
    rw [hheld]
    rfl
  current := hcurrent
  pending h := absurd rfl h
  behind _ _ h := by cases h
  vacant _ := rfl

end Builder

/-! ## Routers -/

variable {b b₁ b₂ b₃ b' parent : Builder} {s : Sketch}
  {branches branches' : List Branch} {ts : List Sketch}
  {spec gatherer : EndpointSpec} {w w₁ w₂ w₃ w' : Workshop}

theorem flatMap_marks (branches : List Branch) :
    (branches.map Branch.registry).flatMap Registry.marks =
      (branches.map fun br => br.registry.marks).flatten := by
  rw [List.flatMap_def, List.map_map]
  rfl

/-- A router whose branches are all closed: they go behind it as they are. -/
theorem traced_routed_closed (hd : b.Traced s)
    (hbranches : List.Forall₂ Branch.Traced branches ts)
    (hr : w.Room (s.keys ++ ts.flatMap Sketch.keys))
    (hclosed : ∀ br ∈ branches, br.ending = .closed)
    (hy : Yields (b.attach spec) w b₁ w') :
    ∃ s₁, s.Closes s₁ ∧ s₁.taps = [] ∧
      (b₁.absorb branches).Traced
        (s₁.extended (branches.map fun br => br.registry.marks)) ∧
      w.Spent (s.keys ++ ts.flatMap Sketch.keys) w'
        (s₁.extended (branches.map fun br => br.registry.marks)).keys := by
  obtain ⟨-, -, hkeys⟩ := shut_of_closed hbranches hclosed
  obtain ⟨s₁, htraced, hcloses, hspent⟩ := hd.closes_attach hr.of_append hy
  have hmarks := flatMap_marks branches
  generalize branches.map (fun br => br.registry.marks) = ps at hkeys hmarks ⊢
  have hbase := htraced.base_of_vacant hcloses.vacant
  have htaps := htraced.vacant hcloses.vacant
  have hspends :
      w.Spent (s.keys ++ ts.flatMap Sketch.keys) w' (s₁.extended ps).keys := by
    refine (hspent.append _).trans ⟨fun k => ?_, fun k => Nat.le_refl _⟩
    refine Nat.le_of_eq ?_
    rw [Sketch.keys_extended hcloses.vacant htaps, hkeys, List.count_append]
  refine ⟨s₁, hcloses, htaps,
    Builder.traced_extended ?_ (htraced.held_of_vacant hcloses.vacant) ?_, hspends⟩
  · rw [← hbase, ← hmarks]
    refine Registry.marks_foldl_extend ?_
    rw [hmarks, hbase]
    exact Sketch.nodup_of_extended (hr.of_spent hspends).nodup
  · refine htraced.current.trans ?_
    rw [hcloses.vacant]
    rfl

/-- A router whose branches go on in the flow: they are led together on a
merge channel, which stands behind them with its bridge. -/
theorem traced_routed_open {merge : Channel} (hd : b.Traced s)
    (hbranches : List.Forall₂ Branch.Traced branches ts)
    (hr : w.Room (s.keys ++ ts.flatMap Sketch.keys))
    (hm : Yields (Builder.mergeChannel branches) w merge w₁)
    (hc : YieldsAll (fun br => br.converge parent merge) w₁ branches branches' w₂)
    (hy : Yields (b.attach spec) { w₂ with nextHandler := w₂.nextHandler + 1 }
      b₁ w₃)
    (hbridge : Yields (b₁.mergedOn branches' merge).bridge w₃ b' w') :
    ∃ s₁ ls e, s.Closes s₁ ∧ s₁.taps = [] ∧
      List.Forall₂ (Sketch.Led merge.key) ts ls ∧
      (∀ k, ts.findSome? (fun t => t.tip.key?) = some k → k = merge.key) ∧
      b'.Traced
        (s₁.extended
          [ls.flatten ++ [.channel merge.key, .endpoint e (some merge.key)]]) ∧
      w.Spent (s.keys ++ ts.flatMap Sketch.keys) w'
        (s₁.extended
          [ls.flatten ++ [.channel merge.key,
              .endpoint e (some merge.key)]]).keys := by
  have hroomBranches : w.Room (ts.flatMap Sketch.keys) := fun k => by
    have hk := hr k
    rw [List.count_append] at hk
    omega
  obtain ⟨ls, hled, hfirst, hmerged, hls⟩ :=
    led_mergeChannel hbranches hroomBranches hm hc
  have hroom₂ := hr.of_spent (hmerged.prepend s.keys)
  obtain ⟨s₁, htraced, hcloses, hspent⟩ :=
    hd.closes_attach (w := { w₂ with nextHandler := w₂.nextHandler + 1 })
      hroom₂.of_append hy
  have hspent : w₂.Spent s.keys w₃ s₁.keys := hspent.congr rfl
  have hroom₃ := hroom₂.of_spent (hspent.append _)
  have hbase := htraced.base_of_vacant hcloses.vacant
  have hheld := htraced.held_of_vacant hcloses.vacant
  have htaps := htraced.vacant hcloses.vacant
  have hkeys : ∀ k, (Mark.keys b₁.registry.marks).count k = s₁.keys.count k :=
    fun k => by
      rw [hbase, Sketch.keys_of_vacant hcloses.vacant htaps]
  have hmarks :=
    Builder.marks_mergedOn (b := b₁) hls <| List.nodup_iff_count.2 fun k => by
      have hk := hroom₃ k
      rw [List.count_append] at hk ⊢
      rw [hkeys]
      omega
  have hroom₄ :
      w₃.Room (Mark.keys (b₁.mergedOn branches' merge).registry.marks) := by
    intro k
    have hk := hroom₃ k
    rw [hmarks]
    simp only [Mark.keys_append, Mark.keys_cons, Mark.key_channel, Mark.keys_nil,
      List.count_append, hkeys] at hk ⊢
    omega
  obtain ⟨e, hend, hheld', hcurrent, hbridged⟩ :=
    Builder.marks_attach (w := { w₃ with nextHandler := w₃.nextHandler + 1 })
      (Builder.of_yields_bridge hbridge) rfl hheld hroom₄
  have hbridged : w₃.Spent [] w' [e] := hbridged.congr rfl
  refine ⟨s₁, ls, e, hcloses, htaps, hled, hfirst,
    Builder.traced_extended ?_ hheld'
      (Builder.currentKey?_eq_none.2 fun c => by simp [hcurrent]),
    ⟨fun k => ?_, fun k => ?_⟩⟩
  · rw [hend, hmarks, hbase]
    simp
  · have hk := hmerged.count k
    have hk₁ := hspent.count k
    have hk₂ := hbridged.count k
    rw [Sketch.keys_extended hcloses.vacant htaps]
    simp only [List.flatten_cons, List.flatten_nil, List.append_nil,
      Mark.keys_append, Mark.keys_cons, Mark.key_channel, Mark.key_endpoint,
      Mark.keys_nil, List.count_append, List.count_cons, List.count_nil]
      at hk hk₁ hk₂ ⊢
    omega
  · exact Nat.le_trans (hbridged.supply k)
      (Nat.le_trans (hspent.supply k) (hmerged.supply k))

/-! ## Scatter-gather -/

/-- What a scatter-gather registered stands behind its endpoint, and behind
that the channel that gathers, with its reader. -/
theorem traced_gathered {parts : List (List Mark)} {gather : Channel}
    (hv : s.tip = .vacant) (ht : s.taps = [])
    (hmarks : b.registry.marks = s.base ++ parts.flatten)
    (hheld : b.cursor.deferred = [])
    (hr : w.Room (s.keys ++ Mark.keys parts.flatten ++ [gather.key]))
    (hy : Yields
      (Builder.attach
        (Builder.continueFrom
          { b with registry := b.registry.add (.channel gather) } (.channel gather))
        gatherer) w b' w')
    (tail : Option Tail) (pending : Option PendingOutput) :
    ∃ e,
      Builder.Traced { b' with
        cursor := { b'.cursor with tail, pending, channel := none } }
        (s.extended
          (parts ++ [[.channel gather.key, .endpoint e (some gather.key)]])) ∧
      w.Spent (s.keys ++ Mark.keys parts.flatten ++ [gather.key]) w'
        (s.extended
          (parts ++
            [[.channel gather.key, .endpoint e (some gather.key)]])).keys := by
  have hroom : w.Room (Mark.keys b.registry.marks ++ [gather.key]) := by
    intro k
    have hk := hr k
    rw [hmarks]
    simp only [Mark.keys_append, List.count_append, Sketch.keys_of_vacant hv ht]
      at hk ⊢
    exact hk
  obtain ⟨e, hend, hheld', hspent⟩ :=
    Builder.marks_attach_added (r := b.registry) hy rfl rfl hheld hroom
  refine ⟨e,
    Builder.traced_extended ?_ hheld'
      (Builder.currentKey?_eq_none.2 fun c => by simp),
    ⟨fun k => ?_, hspent.supply⟩⟩
  · rw [hend, hmarks]
    simp
  · have hk := hspent.count k
    rw [Sketch.keys_extended hv ht]
    simp only [List.flatten_append, List.flatten_cons, List.flatten_nil,
      List.append_nil, Mark.keys_append, Mark.keys_cons, Mark.key_channel,
      Mark.key_endpoint, Mark.keys_nil, List.count_append, List.count_cons,
      List.count_nil] at hk ⊢
    omega

/-- A scatter-gather over a recipient list: the list reads the channel that
scatters, and its branches follow. -/
theorem traced_scatterRecipients {scattering : Scattering} {gather : Channel}
    (hd : b.Traced s)
    (hr : w.Room
      (s.keys ++ [gather.key] ++ [scattering.channel.key] ++
        Mark.keys (branches.map fun br => br.registry.marks).flatten))
    (hattach : Yields (b.attach spec) w b₁ w₁) (hlist : scattering.list ≠ none)
    (hregister : Yields
      (Builder.registerScatter
        { b₁ with cursor := { b₁.cursor with tail := none, pending := none } }
        scattering branches) w₁ b₂ w₂)
    (hgatherer : Yields
      (Builder.attach
        (Builder.continueFrom
          { b₂ with registry := b₂.registry.add (.channel gather) }
          (.channel gather)) gatherer) w₂ b₃ w')
    (tail : Option Tail) (pending : Option PendingOutput) :
    ∃ s₁ l e, s.Closes s₁ ∧ s₁.taps = [] ∧
      Builder.Traced { b₃ with
        cursor := { b₃.cursor with tail, pending, channel := none } }
        (s₁.extended
          ([.channel scattering.channel.key,
              .endpoint l (some scattering.channel.key)] :: branches.map
            (fun br => br.registry.marks) ++
            [[.channel gather.key, .endpoint e (some gather.key)]])) ∧
      w.Spent (s.keys ++ [gather.key] ++ [scattering.channel.key] ++
        Mark.keys (branches.map fun br => br.registry.marks).flatten) w'
        (s₁.extended
          ([.channel scattering.channel.key,
              .endpoint l (some scattering.channel.key)] :: branches.map
            (fun br => br.registry.marks) ++
            [[.channel gather.key, .endpoint e (some gather.key)]])).keys := by
  have hps := flatMap_marks branches
  generalize branches.map (fun br => br.registry.marks) = ps at hr hps ⊢
  obtain ⟨s₁, htraced, hcloses, hspent₁⟩ :=
    hd.closes_attach hr.of_append.of_append.of_append hattach
  have hbase := htraced.base_of_vacant hcloses.vacant
  have hheld := htraced.held_of_vacant hcloses.vacant
  have htaps := htraced.vacant hcloses.vacant
  have hkeys := Sketch.keys_of_vacant hcloses.vacant htaps
  have hroom₁ := hr.of_spent
    (((hspent₁.append [gather.key]).append [scattering.channel.key]).append _)
  obtain ⟨b₄, rfl, ⟨hnone, -⟩ | ⟨listSpec, -, hlisted⟩⟩ :=
    Builder.of_yields_registerScatter hregister
  · exact absurd hnone hlist
  have hroomList :
      w₁.Room (Mark.keys b₁.registry.marks ++ [scattering.channel.key]) := by
    intro k
    have hk := hroom₁ k
    rw [hbase]
    simp only [List.count_append, hkeys] at hk ⊢
    omega
  obtain ⟨l, hmarks, hheld', hspent₂⟩ := Builder.marks_attach_added
    (r := b₁.registry) (w := { w₁ with nextHandler := w₁.nextHandler + 1 }) hlisted
    rfl rfl hheld hroomList
  have hspent₂ : w₁.Spent [] w₂ [l] := hspent₂.congr rfl
  have hparts : ∀ k,
      (Mark.keys
        ([.channel scattering.channel.key,
            .endpoint l (some scattering.channel.key)] :: ps).flatten).count k =
      [scattering.channel.key].count k + [l].count k +
        (Mark.keys ps.flatten).count k :=
    fun k => by
      simp [List.count_cons]
      omega
  have hroom₂ :
      w₂.Room (s₁.keys ++
        Mark.keys ([.channel scattering.channel.key,
            .endpoint l (some scattering.channel.key)] :: ps).flatten ++
        [gather.key]) := by
    intro k
    have hk := hroom₁ k
    have hk' := hspent₂.count k
    simp only [List.count_append, hparts, List.count_nil] at hk hk' ⊢
    omega
  have habsorb : (b₄.absorb branches).registry.marks = s₁.base ++
        ([.channel scattering.channel.key,
            .endpoint l (some scattering.channel.key)] :: ps).flatten := by
    refine (Registry.marks_foldl_extend ?_).trans ?_
    · rw [hps, hmarks, hbase, List.nodup_iff_count]
      intro k
      have hk := hroom₂ k
      simp only [List.flatten_cons, Mark.keys_append, List.count_append, hkeys]
        at hk ⊢
      omega
    · rw [hps, hmarks, hbase]
      simp
  obtain ⟨e, htraced', hspent'⟩ :=
    traced_gathered hcloses.vacant htaps habsorb hheld' hroom₂
      hgatherer tail pending
  refine ⟨s₁, l, e, hcloses, htaps, htraced', fun k => ?_, fun k => ?_⟩
  · have hk := hspent₁.count k
    have hk₁ := hspent₂.count k
    have hk₂ := hspent'.count k
    simp only [List.count_append, hparts, List.count_nil] at hk hk₁ hk₂ ⊢
    omega
  · exact Nat.le_trans (hspent'.supply k)
      (Nat.le_trans (hspent₂.supply k) (hspent₁.supply k))

/-! ## The flows of a call, and what is spent on it -/

namespace Step

variable {s s₁ : Sketch} {w w₁ w₂ w₃ w' : Workshop}
  {keys seeds places placed inputs budget : List ComponentKey}
  {ps : List (List Mark)} {reader : List Mark}

/-- What is known of the flows of a step is known of them as they are run. -/
theorem forall_flows {P : List Step → Prop} {step : Step}
    {flows : List (Channel × List Step)} (h : ∀ steps ∈ step.flows, P steps)
    (hflows : flows.map Prod.snd = step.flows) : ∀ flow ∈ flows, P flow.2 := by
  refine fun flow hm => h flow.2 ?_
  rw [← hflows]
  exact List.mem_map_of_mem hm

/-- The channels that flows start at are made ahead of everything else. -/
theorem spent_seeds (h : w.Spent [] w₁ seeds) (keys placed : List ComponentKey) :
    w.Spent (keys ++ placed) w₁ (keys ++ seeds ++ placed) := by
  have hmade := (h.prepend keys).append placed
  rwa [List.append_nil] at hmade

/-- A tap opens its flow, and then finds the channel that it goes on. -/
theorem spent_tapped (hopen : w.Spent [] w₁ seeds)
    (htap : w₁.Spent s.keys w₂ s₁.keys)
    (hrun : w₂.Spent (seeds ++ placed) w' (Mark.keys ps.flatten)) :
    w.Spent (s.keys ++ placed) w' (s₁.held ps).keys := by
  have hrun :=
    ((spent_seeds hopen s.keys placed).trans
      ((htap.append seeds).append placed)).run hrun
  refine hrun.trans ⟨fun k => Nat.le_of_eq ?_, fun _ => Nat.le_refl _⟩
  rw [Sketch.keys_held, List.count_append]

/-- An endpoint makes its handler and what its side flows start at, and then
resolves its input. -/
theorem spent_resolved (hhandler : w.Spent [] w₁ [])
    (hseeds : w₁.Spent places w₂ seeds) (hinput : w₂.Spent [] w₃ inputs)
    (keys placed : List ComponentKey) :
    w.Spent (keys ++ (places ++ placed)) w₃
      (keys ++ inputs ++ seeds ++ placed) := by
  have hhandler := hhandler.prepend (keys ++ (places ++ placed))
  rw [List.append_nil] at hhandler
  have hinput := spent_seeds hinput keys (seeds ++ placed)
  rw [← List.append_assoc (keys ++ inputs)] at hinput
  exact (hhandler.trans ((hseeds.append placed).prepend keys)).trans hinput

/-- Once the side flows of an endpoint are run, what is left over is the key
of its reader. -/
theorem spent_wired
    (hstaged : w.Spent budget w₁ (s.keys ++ inputs ++ Mark.keys ps.flatten))
    (hreader : w₁.Spent inputs w' (Mark.keys reader)) :
    w.Spent budget w' (s.wired ps reader).keys := by
  have hstaged :=
    hstaged.trans ((hreader.prepend s.keys).append (Mark.keys ps.flatten))
  refine hstaged.trans ⟨fun k => ?_, fun _ => Nat.le_refl _⟩
  rw [Sketch.keys_wired, List.count_append, List.count_append]
  omega

/-- A scatter-gather makes its recipient list, and then the channels that
gather and scatter. -/
theorem spent_scattering {gather scatter : Channel} (hrelease : w.Spent [] w₁ [])
    (hseeds : w₁.Spent [] w₂ seeds) (hgather : gather.key = ⟨w₂.nextComponent⟩)
    (hscatter : scatter.key = ⟨w₂.nextComponent + 1⟩)
    (keys placed : List ComponentKey) :
    w.Spent (keys ++ placed) { w₂ with nextComponent := w₂.nextComponent + 1 + 1 }
      (keys ++ [gather.key] ++ [scatter.key] ++ seeds ++ placed) := by
  have htwo := spent_seeds (Spent.nextTwo w₂) keys (seeds ++ placed)
  rw [← hgather, ← hscatter, ← List.append_assoc keys, ← List.append_assoc,
    List.append_cons keys] at htwo
  exact (spent_seeds (hrelease.trans hseeds) keys placed).trans htwo

end Step

end FlowAssembly
