import FlowAssembly.Proofs.Interceptions
import FlowAssembly.Proofs.Origins

/-!
# What a call adds at the end

Most of what a call does to the order of its flow is to add something behind
what is there. There are two exceptions: side flows go ahead of the channel
that their endpoint reads, and the channel that branches meet on is moved
behind them. So a call extends its builder (`Builder.Extends`), or it attaches
an endpoint with sides, or it extends its builder and then lets branches meet
(`Builder.Follows`). In the first case everything keeps its place, the channel
that the flow stands on stays or is read, and a channel that the flow stands
on afterwards is registered.
-/

namespace FlowAssembly

open Assembly

/-! ## Registries -/

namespace Registry

variable {r : Registry} {c : Component}

theorem marks_add (r : Registry) (c : Component) : r.marks <+: (r.add c).marks := by
  rw [marks, marks, components_add]
  split
  · exact List.prefix_rfl
  · rw [List.map_append]
    exact List.prefix_append _ _

theorem marks_prefix_foldl_extend (others : List Registry) (r : Registry) :
    r.marks <+: (others.foldl extend r).marks := by
  induction others generalizing r with
  | nil => exact List.prefix_rfl
  | cons other rest ih =>
      rw [List.foldl_cons]
      refine List.IsPrefix.trans ?_ (ih (r.extend other))
      rw [marks_extend]
      exact List.prefix_append _ _

end Registry

theorem Assembly.YieldsAll.eq_nil {α β : Type} {f : α → Assembly β} {bs : List β}
    {w w' : Workshop} (h : YieldsAll f w [] bs w') : bs = [] := by
  cases h
  rfl

/-- The next endpoint has none of the keys that were given out. -/
theorem Endpoint.Fresh.ne_of_lt {e : Endpoint} {n : Nat} {k : ComponentKey}
    (h : e.Fresh n) (hk : k.number < n) :
    k ≠ e.key := by
  rintro rfl
  rw [h.key] at hk
  exact Nat.lt_irrefl n hk

namespace Builder

variable {b b₁ b' : Builder} {c : Channel} {e : Endpoint} {input : ResolvedInput}
  {k : ComponentKey}

theorem currentKey?_of_none (h : b.cursor.channel = none) :
    b.currentKey? = none := by
  rw [currentKey?, h]

/-! ## One operation after the other -/

/-- The component is registered, and it is not the one whose output is
pending: nothing will change it. -/
structure Settled (b : Builder) (x : Component) : Prop where
  mem : x ∈ b.registry.components
  apart : ∀ p ∈ b.cursor.pending, p.component ≠ x.key

/-- What stood in the flow keeps its place, and more may stand behind it. The
channel that the flow stood on is read by now if the flow does not stand on it
any more, and one that it stands on now is registered if it did not before. -/
structure Extends (b b' : Builder) : Prop where
  input : b'.input = b.input
  named : b'.namedInput = b.namedInput
  marks : b.registry.marks <+: b'.registry.marks
  channels : ∀ c, .channel c ∈ b.registry.components →
    .channel c ∈ b'.registry.components
  settled : ∀ x, b.Settled x → b'.Settled x
  read : ∀ k, b.currentKey? = some k → b'.currentKey? = some k ∨
    k ∈ Mark.reads b'.registry.marks
  seated : ∀ c, b'.cursor.channel = some (.channel c) →
    b.cursor.channel = some (.channel c) ∨ .channel c ∈ b'.registry.components

namespace Extends

theorem refl (b : Builder) : b.Extends b :=
  ⟨rfl, rfl, List.prefix_rfl, fun _ hc => hc, fun _ hx => hx, fun _ hk => .inl hk,
    fun _ hk => .inl hk⟩

theorem trans (h : b.Extends b₁) (h' : b₁.Extends b') : b.Extends b' where
  input := h'.input.trans h.input
  named := h'.named.trans h.named
  marks := h.marks.trans h'.marks
  channels c hc := h'.channels c (h.channels c hc)
  settled x hx := h'.settled x (h.settled x hx)
  read k hk := by
    rcases h.read k hk with hk | hk
    · exact h'.read k hk
    · obtain ⟨more, hmore⟩ := h'.marks
      rw [← hmore, Mark.reads_append]
      exact .inr (List.mem_append_left _ hk)
  seated c hc := by
    rcases h'.seated c hc with hc | hc
    · exact (h.seated c hc).imp_right (h'.channels c)
    · exact .inr hc

/-- A builder that stands where it stood. -/
theorem of_same (hi : b'.input = b.input) (hn : b'.namedInput = b.namedInput)
    (hc : b'.cursor.channel = b.cursor.channel)
    (hp : b'.cursor.pending = b.cursor.pending)
    (hm : b.registry.marks <+: b'.registry.marks)
    (hs : b.registry.components ⊆ b'.registry.components) : b.Extends b' := by
  have hcurrent : b'.currentKey? = b.currentKey? := by
    rw [currentKey?, currentKey?, hc]
  exact ⟨hi, hn, hm, fun _ hc => hs hc,
    fun x hx => ⟨hs hx.mem, by rw [hp]; exact hx.apart⟩,
    fun k hk => .inl (hcurrent.trans hk), fun c hcur => .inl (hc.symm.trans hcur)⟩

end Extends

theorem extends_absorb (b : Builder) (branches : List Branch) :
    b.Extends (b.absorb branches) :=
  .of_same rfl rfl rfl rfl (Registry.marks_prefix_foldl_extend _ _)
    (Registry.subset_foldl_extend _ _)

theorem extends_holding (b : Builder) (branches : List Branch) :
    b.Extends (b.holding branches) :=
  .of_same rfl rfl rfl rfl List.prefix_rfl (List.Subset.refl _)

theorem subset_posted (b : Builder) (c : Channel) (reader : Option Endpoint) :
    b.registry.components ⊆ (b.posted c reader).registry.components := by
  cases reader with
  | none => exact Registry.subset_add _ _
  | some e =>
      exact List.Subset.trans (Registry.subset_add b.registry (.channel c))
        (Registry.subset_add _ _)

theorem extends_posted (b : Builder) (c : Channel) (reader : Option Endpoint) :
    b.Extends (b.posted c reader) := by
  refine .of_same rfl rfl rfl rfl ?_ (b.subset_posted c reader)
  cases reader with
  | none => exact Registry.marks_add _ _
  | some e =>
      exact (Registry.marks_add b.registry (.channel c)).trans
        (Registry.marks_add _ _)

theorem input_bindPending (b : Builder) (target : Target) :
    (b.bindPending target).input = b.input ∧
    (b.bindPending target).namedInput = b.namedInput := by
  unfold bindPending
  split
  · exact ⟨rfl, rfl⟩
  · exact ⟨rfl, rfl⟩

theorem channel_mem_bindPending {target : Target}
    (h : .channel c ∈ b.registry.components) :
    .channel c ∈ (b.bindPending target).registry.components := by
  rw [components_bindPending]
  exact List.mem_map.2 ⟨.channel c, h, bound_channel ..⟩

theorem Settled.bindPending {x : Component} (h : b.Settled x) (target : Target) :
    (b.bindPending target).Settled x where
  mem := by
    rw [components_bindPending]
    refine List.mem_map.2 ⟨x, h.mem, ?_⟩
    unfold bound
    cases hp : b.cursor.pending with
    | some p => exact Component.boundTo_of_ne (Ne.symm (h.apart p hp)) target
    | none => rfl
  apart p hp := by
    rw [pending_bindPending] at hp
    cases hp

/-- Going on where the flow stands on nothing yet. -/
theorem extends_appended {source : ChannelSource} (hb : b.currentKey? = none)
    (hs : ∀ c, source = .channel c → ∀ x ∈ b.registry.components, x.key = c.key →
      x = .channel c) :
    b.Extends (b.appended source) := by
  have hseated : ∀ c, (b.appended source).cursor.channel = some (.channel c) →
      .channel c ∈ (b.appended source).registry.components := by
    intro c hc
    obtain rfl := Option.some.inj ((channel_appended b source).symm.trans hc)
    refine channel_mem_bindPending
      (b := { b with registry := b.registry.add (.channel c) }) ?_
    by_cases hmem : ∃ x ∈ b.registry.components, x.key = c.key
    · obtain ⟨x, hx, hkey⟩ := hmem
      exact Registry.subset_add _ _ (hs c rfl x hx hkey ▸ hx)
    · exact Registry.mem_add fun x hx hkey => hmem ⟨x, hx, hkey⟩
  have hread : ∀ k, b.currentKey? = some k →
      (b.appended source).currentKey? = some k ∨
      k ∈ Mark.reads (b.appended source).registry.marks :=
    fun k hk => by
      rw [hb] at hk
      cases hk
  cases source with
  | channel c =>
      have hmarks : (b.appended (.channel c)).registry.marks =
          (b.registry.add (.channel c)).marks :=
        marks_bindPending { b with registry := b.registry.add (.channel c) } _
      have hinput :=
        input_bindPending { b with registry := b.registry.add (.channel c) }
        (.channel c)
      refine ⟨hinput.1, hinput.2, ?_, fun d hd => ?_, fun x hx => ?_, hread,
        fun c hc => .inr (hseated c hc)⟩
      · rw [hmarks]
        exact Registry.marks_add _ _
      · exact channel_mem_bindPending
          (b := { b with registry := b.registry.add (.channel c) })
          (Registry.subset_add _ _ hd)
      · have hadded :
            Settled { b with registry := b.registry.add (.channel c) } x :=
          ⟨Registry.subset_add _ _ hx.mem, hx.apart⟩
        obtain ⟨hmem, hapart⟩ := hadded.bindPending (.channel c)
        exact ⟨hmem, hapart⟩
  | named name =>
      have hinput := b.input_bindPending (.named name)
      refine ⟨hinput.1, hinput.2, ?_,
        fun d hd => channel_mem_bindPending (b := b) hd, fun x hx => ?_, hread,
        fun c hc => .inr (hseated c hc)⟩
      · have hmarks :
            (b.appended (.named name)).registry.marks = b.registry.marks :=
          marks_bindPending b _
        exact hmarks ▸ List.prefix_rfl
      · obtain ⟨hmem, hapart⟩ := hx.bindPending (.named name)
        exact ⟨hmem, hapart⟩
  | fixedSubscriber id =>
      exact ⟨rfl, rfl, List.prefix_rfl, fun d hd => hd,
        fun x hx => ⟨hx.mem, hx.apart⟩, hread, fun c hc => .inr (hseated c hc)⟩

/-! ## Attaching -/

/-- An attached endpoint stands behind all that was readied for it, and what
was held back behind that. -/
theorem registry_wired (b : Builder) (input : ResolvedInput) (sides : List Registry)
    (e : Endpoint) :
    (b.wired input sides e).registry = b.cursor.deferred.foldl Registry.extend
      ((b.ready input sides).registry.add (.endpoint e)) := by
  have hchannel : (b.ready input sides).cursor.channel = none := by
    rw [ready_eq, channel_bindPending, cursor_placed]
  have hdeferred : (b.ready input sides).cursor.deferred = b.cursor.deferred := by
    rw [ready_eq, deferred_bindPending, cursor_placed]
  have hcurrent : currentKey? { b.ready input sides with
      registry := (b.ready input sides).registry.add (.endpoint e) } = none :=
        currentKey?_of_none hchannel
  have hflushed :
      (b.wired input sides e).registry = (flushDeferred { b.ready input sides with
        registry := (b.ready input sides).registry.add (.endpoint e) }).registry :=
          rfl
  rw [hflushed, flushDeferred, hcurrent]
  dsimp only
  rw [hdeferred]
  cases b.cursor.deferred with
  | nil => rfl
  | cons first rest => rfl

theorem marks_ready (b : Builder) (input : ResolvedInput) (sides : List Registry) :
    (b.ready input sides).registry.marks =
      (b.placed input sides).registry.marks := by
  rw [ready_eq, marks_bindPending]

theorem marks_placed_plain (b : Builder) (input : ResolvedInput) :
    b.registry.marks <+: (b.placed input []).registry.marks := by
  unfold placed
  dsimp only [placeSides]
  split
  · exact Registry.marks_add _ _
  · exact List.prefix_rfl

theorem subset_placed (b : Builder) (input : ResolvedInput)
    (sides : List Registry) :
    b.registry.components ⊆ (b.placed input sides).registry.components := by
  have hsides :
      b.registry.components ⊆
        (placeSides { b with cursor := { b.cursor with channel := none } }
          input.target sides).registry.components := by
    cases sides with
    | nil => exact List.Subset.refl _
    | cons side rest => exact Registry.subset_extendBefore _ _ _
  unfold placed
  split
  · exact List.Subset.trans hsides (Registry.subset_add _ _)
  · exact hsides

theorem channel_mem_wired {sides : List Registry}
    (h : .channel c ∈ b.registry.components) :
    .channel c ∈ (b.wired input sides e).registry.components := by
  rw [registry_wired, ready_eq]
  exact Registry.subset_foldl_extend _ _
    (Registry.subset_add _ _
      (channel_mem_bindPending (b.subset_placed input sides h)))

theorem Settled.wired {x : Component} {sides : List Registry} (h : b.Settled x)
    (hne : x.key ≠ e.key) :
    (b.wired input sides e).Settled x where
  mem := by
    have hplaced : (b.placed input sides).Settled x :=
      ⟨b.subset_placed input sides h.mem, by rw [cursor_placed]; exact h.apart⟩
    rw [registry_wired, ready_eq]
    exact Registry.subset_foldl_extend _ _
      (Registry.subset_add _ _ (hplaced.bindPending input.target).mem)
  apart p hp := by
    rw [cursor_wired] at hp
    dsimp only at hp
    split at hp
    · cases hp
      exact hne.symm
    · cases hp

/-- What is remembered of the input is decided when the sides are placed. -/
theorem input_wired (b : Builder) (input : ResolvedInput) (sides : List Registry)
    (e : Endpoint) :
    (b.wired input sides e).input =
      (placeSides { b with cursor := { b.cursor with channel := none } }
        input.target sides).input ∧
    (b.wired input sides e).namedInput = b.namedInput := by
  have hflush : ∀ b : Builder, b.flushDeferred.input = b.input ∧
      b.flushDeferred.namedInput = b.namedInput := by
    intro b
    unfold flushDeferred
    split
    · exact ⟨rfl, rfl⟩
    · exact ⟨rfl, rfl⟩
  have hbound := (b.placed input sides).input_bindPending input.target
  have hplaced : (b.placed input sides).input =
      (placeSides { b with cursor := { b.cursor with channel := none } }
        input.target sides).input ∧
      (b.placed input sides).namedInput = b.namedInput := by
    unfold placed
    cases sides <;> cases input.made <;> exact ⟨rfl, rfl⟩
  have hwired :=
    hflush { b.ready input sides with
      registry := (b.ready input sides).registry.add (.endpoint e) }
  rw [ready_eq] at hwired
  exact ⟨(hwired.1.trans hbound.1).trans hplaced.1,
    (hwired.2.trans hbound.2).trans hplaced.2⟩

/-- Attaching an endpoint without sides adds it behind what is there, and it
reads the channel that the flow stood on. -/
theorem extends_wired (hreads : e.input = input.target)
    (hcurrent : ∀ c, b.cursor.channel = some (.channel c) →
      input = ⟨.channel c, none⟩)
    (hfresh : ∀ x ∈ b.registry.components, x.key ≠ e.key) :
    b.Extends (b.wired input [] e) where
  input := (b.input_wired input [] e).1
  named := (b.input_wired input [] e).2
  marks := by
    rw [registry_wired]
    refine (marks_placed_plain b input).trans ?_
    rw [← marks_ready]
    exact (Registry.marks_add _ _).trans (Registry.marks_prefix_foldl_extend _ _)
  channels c hc := channel_mem_wired hc
  settled x hx := hx.wired (hfresh x hx.mem)
  read k hk := by
    obtain ⟨c, hc, rfl⟩ := currentKey?_eq_some.1 hk
    have hinput := hcurrent c hc
    have hmem : .endpoint e ∈ (b.wired input [] e).registry.components := by
      refine mem_wired fun x hx => ?_
      simp only [hinput, madeChannels, Option.toList_none, List.map_nil,
        List.flatMap_nil, List.append_nil] at hx
      exact hfresh x hx
    refine .inr (List.mem_filterMap.2 ⟨_, List.mem_map_of_mem hmem, ?_⟩)
    rw [Component.mark, Mark.reads?, hreads, hinput]
    rfl
  seated c hc := by
    rw [cursor_wired] at hc
    cases hc

theorem extends_attach {spec : EndpointSpec} {w w' : Workshop}
    (hgiven : ∀ x ∈ b.registry.components, x.key.number < w.nextComponent)
    (h : Yields (b.attach spec) w b' w') :
    b.Extends b' ∧ b'.cursor.channel = none := by
  obtain ⟨input, w₁, hi, hw⟩ := of_yields_attach h
  obtain ⟨e, rfl, hfresh, -, hreads, -⟩ := wired_of_yields hw
  have hle : w.nextComponent ≤ w₁.nextComponent :=
    ((resolveInput_leaves _ _).of_yields hi).components
  refine ⟨extends_wired hreads (fun c hc => ?_) fun x hx => ?_,
    by rw [cursor_wired]⟩
  · rw [hc] at hi
    exact (yields_pure.1 hi).1
  · exact hfresh.ne_of_lt (Nat.lt_of_lt_of_le (hgiven x hx) hle)

/-- The key is not that of an endpoint or a source. -/
def Spares (b : Builder) (k : ComponentKey) : Prop :=
  ∀ x ∈ b.components, x.key = k → x.isWorker = false

theorem Knows.spares {w : Workshop} (h : b.Knows w c) : b.Spares c.key := by
  intro x hx hk
  rw [h.same x hx hk]
  rfl

/-- A channel with a new key is known wherever all keys were given out
before. -/
theorem Knows.of_new {w w' : Workshop}
    (hgiven : ∀ x ∈ b.components, x.key.number < w.nextComponent)
    (hge : w.nextComponent ≤ c.key.number) (hlt : c.key.number < w'.nextComponent) :
    b.Knows w' c := by
  refine ⟨hlt, fun x hx heq => ?_⟩
  have hbefore := hgiven x hx
  rw [heq] at hbefore
  exact absurd hge (Nat.not_le.2 hbefore)

theorem spares_of_new {w : Workshop}
    (hgiven : ∀ x ∈ b.components, x.key.number < w.nextComponent)
    (hk : w.nextComponent ≤ k.number) : b.Spares k := by
  intro x hx heq
  have hlt := hgiven x hx
  rw [heq] at hlt
  exact absurd hk (Nat.not_le.2 hlt)

/-- What stands behind an attached endpoint stood there before, but for an
output, or has a new key: the endpoint, or the channel that was made for it. -/
theorem exists_or_new_of_attach {spec : EndpointSpec} {x : Component}
    {w w' : Workshop} (hx : x ∈ b'.components)
    (h : Yields (b.attach spec) w b' w') :
    (∃ y ∈ b.components, ∃ o, y.settled o = x) ∨
      w.nextComponent ≤ x.key.number ∧ x.key.number < w'.nextComponent := by
  obtain ⟨input, w₁, hi, hw⟩ := of_yields_attach h
  obtain ⟨e, rfl, hfresh, -, -, hnext⟩ := wired_of_yields hw
  have hle : w.nextComponent ≤ w₁.nextComponent :=
    ((resolveInput_leaves _ _).of_yields hi).components
  have hparts := (b.condenses_wired input [] e).subperm.subset hx
  simp only [List.flatMap_nil, List.append_nil, List.mem_append, List.mem_singleton]
    at hparts
  rcases hparts with (hx | rfl) | hx
  · obtain ⟨y, hy, rfl⟩ := List.mem_map.1 hx
    rcases List.mem_append.1 hy with hy | hy
    · exact .inl ⟨y, by rw [components_eq]; exact List.mem_append_left _ hy,
        b.binding input.target, by rw [bound_eq]⟩
    · obtain ⟨d, hd, rfl⟩ := List.mem_map.1 hy
      rcases of_yields_resolveInput hi
        with ⟨d', -, rfl, -⟩ | ⟨name, -, rfl, -⟩ | ⟨d', -, rfl, hkey, rfl⟩
      · cases hd
      · cases hd
      · obtain rfl := List.mem_singleton.1 hd
        rw [key_bound, show (Component.channel d).key = d.key from rfl, hkey,
          hnext]
        exact .inr ⟨Nat.le_refl _, Nat.lt_succ_of_lt (Nat.lt_succ_self _)⟩
  · rw [show (Component.endpoint e).key = _ from hfresh.key, hnext]
    exact .inr ⟨hle, Nat.lt_succ_self _⟩
  · exact .inl
      ⟨x, by rw [components_eq]; exact List.mem_append_right _ hx, none, rfl⟩

theorem exists_of_attach {spec : EndpointSpec} {x : Component} {w w' : Workshop}
    (hx : x ∈ b'.components) (hlt : x.key.number < w.nextComponent)
    (h : Yields (b.attach spec) w b' w') :
    ∃ y ∈ b.components, ∃ o, y.settled o = x :=
  (exists_or_new_of_attach hx h).resolve_right fun hnew =>
    Nat.not_lt.2 hnew.1 hlt

theorem Spares.attach {spec : EndpointSpec} {w w' : Workshop} (hs : b.Spares k)
    (hlt : k.number < w.nextComponent) (h : Yields (b.attach spec) w b' w') :
    b'.Spares k := by
  intro x hx hk
  obtain ⟨y, hy, o, rfl⟩ := exists_of_attach hx (hk ▸ hlt) h
  rw [Component.key_settled] at hk
  rcases Component.settled_eq_or o y with heq | ⟨target, heq⟩
  · rw [heq]
    exact hs y hy hk
  · rw [heq, Component.isWorker_withOutput]
    exact hs y hy hk

theorem Knows.attach {spec : EndpointSpec} {w w' : Workshop} (hk : b.Knows w c)
    (h : Yields (b.attach spec) w b' w') :
    b'.Knows w' c where
  made := Nat.lt_of_lt_of_le hk.made ((b.attach_adds spec).of_yields h).components
  same x hx hkey := by
    obtain ⟨y, hy, o, rfl⟩ := exists_of_attach hx (by rw [hkey]; exact hk.made) h
    rw [Component.key_settled] at hkey
    rw [hk.same y hy hkey]
    exact Component.settled_channel o c

theorem given_of_attach {spec : EndpointSpec} {w w' : Workshop}
    (hgiven : ∀ x ∈ b.components, x.key.number < w.nextComponent)
    (h : Yields (b.attach spec) w b' w') :
    ∀ x ∈ b'.components, x.key.number < w'.nextComponent := by
  intro x hx
  rcases exists_or_new_of_attach hx h with ⟨y, hy, o, rfl⟩ | ⟨-, hlt⟩
  · rw [Component.key_settled]
    exact Nat.lt_of_lt_of_le (hgiven y hy)
      ((b.attach_adds spec).of_yields h).components
  · exact hlt

theorem registry_subset_components (b : Builder) :
    b.registry.components ⊆ b.components := by
  rw [components_eq]
  exact List.subset_append_left _ _

theorem extends_channel {source : ChannelSource} {w w' : Workshop}
    (hgiven : ∀ x ∈ b.components, x.key.number < w.nextComponent)
    (hs : ∀ c, source = .channel c → b.Knows w c)
    (h : Yields (b.channel source) w b' w') : b.Extends b' := by
  obtain ⟨b₁, hb, rfl⟩ := of_yields_channel h
  rcases hb with ⟨-, hb⟩ | ⟨hnone, rfl, -⟩
  · obtain ⟨hextends, hnone⟩ := extends_attach
      (w := { w with nextHandler := w.nextHandler + 1 })
      (fun x hx => hgiven x (b.registry_subset_components hx)) (of_yields_bridge hb)
    refine hextends.trans
      (extends_appended (currentKey?_of_none hnone) fun c hc x hx hk => ?_)
    have hknows : b.Knows { w with nextHandler := w.nextHandler + 1 } c :=
      ⟨(hs c hc).made, (hs c hc).same⟩
    exact (hknows.attach (of_yields_bridge hb)).same x
      (b₁.registry_subset_components hx) hk
  · exact extends_appended (currentKey?_of_none hnone) fun c hc x hx hk =>
      (hs c hc).same x (b₁.registry_subset_components hx) hk

theorem extends_tapPoint {attempted : String} {w w' : Workshop}
    (hgiven : ∀ x ∈ b.components, x.key.number < w.nextComponent)
    (h : Yields (b.tapPoint attempted) w (b', c) w') : b.Extends b' := by
  rcases of_yields_tapPoint h with ⟨-, rfl, -⟩ | ⟨hnone, rfl, hkey, -⟩
  · exact .refl b'
  · refine extends_appended (currentKey?_of_none hnone) ?_
    rintro _ ⟨⟩ x hx hk
    have hlt := hgiven x (b.registry_subset_components hx)
    rw [hk, hkey] at hlt
    exact absurd hlt (Nat.lt_irrefl _)

/-! ## Calls -/

/-- What a call makes of its builder. The keys are those of channels that the
call may put somewhere: of those that the caller brings and of new ones. -/
inductive Follows (b : Builder) (placed : ComponentKey → Prop) : Builder → Prop
  /-- Whatever was done was done behind what was there. -/
  | behind {b' : Builder} : b.Extends b' → Follows b placed b'
  /-- An endpoint was attached with side flows. -/
  | sided {input : ResolvedInput} {sides : List Registry} {e : Endpoint} :
      sides ≠ [] →
      (∀ c, input.target = .channel c → b.currentKey? = some c.key ∨ placed c.key) →
      Follows b placed (b.wired input sides e)
  /-- Branches met on a channel, which a bridge reads. -/
  | met {b₁ : Builder} {branches : List Branch} {m : Channel} {e : Endpoint} :
      b.Extends b₁ → b₁.cursor.channel = none → b₁.Spares m.key →
      (b₁.mergedOn branches m).Extends ((b₁.mergedOn branches m).wired
        ⟨.channel m, none⟩ [] e) →
      Follows b placed ((b₁.mergedOn branches m).wired ⟨.channel m, none⟩ [] e)

end Builder

/-- The channel of a plan is one that the caller brings, or it is made. -/
theorem ChannelPlan.brought_or_made {plan : ChannelPlan} {c : Channel}
    {w w' : Workshop} (h : Yields plan.make w c w') :
    c ∈ plan.brought ∨ w.nextComponent ≤ c.key.number ∧
    c.key.number < w'.nextComponent := by
  match plan with
  | .existing channel =>
      obtain ⟨rfl, -⟩ := yields_pure.1 (by simpa only [make] using h)
      exact .inl List.mem_cons_self
  | .new kind id datatypes plans =>
      simp only [make, yields_bind, yields_explicitChannel] at h
      obtain ⟨interceptors, w₁, hi, c', w₂, ⟨rfl, rfl⟩, h⟩ := h
      have hle := ((InterceptorPlan.makeAll_leaves plans).of_yields hi).components
      split at h
      · simp only [yields_bind, yields_pure] at h
        obtain ⟨_, _, ha, rfl, rfl⟩ := h
        obtain rfl := yields_forM_attach.1 ha
        exact .inr ⟨hle, Nat.lt_succ_self _⟩
      · obtain ⟨rfl, rfl⟩ := yields_pure.1 h
        exact .inr ⟨hle, Nat.lt_succ_self _⟩
  | .faulty cause =>
      rw [make] at h
      exact absurd h not_yields_throw

theorem brought_or_made_of_sides {sides : List (ChannelPlan × List Step)}
    {seeds : List Channel} {w w' : Workshop}
    (h : YieldsAll (fun side => side.1.make) w sides seeds w') :
    ∀ c ∈ seeds, c ∈ sides.flatMap (fun side => side.1.brought) ∨
      w.nextComponent ≤ c.key.number ∧ c.key.number < w'.nextComponent := by
  induction h with
  | nil w => exact fun c hc => absurd hc List.not_mem_nil
  | @cons w w₁ w' side seed sides seeds hy hys ih =>
      have hle := (side.1.make_leaves.of_yields hy).components
      have hle' :=
        (supplied_of_yieldsAll (fun side => side.1.make_leaves) hys).components
      refine List.forall_mem_cons.2 ⟨?_, fun c hc => ?_⟩
      · rcases ChannelPlan.brought_or_made hy with hc | ⟨hge, hlt⟩
        · exact .inl (List.mem_append_left _ hc)
        · exact .inr ⟨hge, Nat.lt_of_lt_of_le hlt hle'⟩
      · rcases ih c hc with hc | ⟨hge, hlt⟩
        · exact .inl (List.mem_append_right _ hc)
        · exact .inr ⟨Nat.le_trans hle hge, hlt⟩

theorem Builder.accrues_of_runBranches {b : Builder}
    {flows : List (Channel × List Step)} {branches : List Branch} {w w' : Workshop}
    (h : YieldsAll b.runBranch w flows branches w') : w.Accrues w' :=
  runBranches_keep_before h fun _ _ _ _ _ _ _ =>
    runBranch_keeps (keepsWithin _) fun _ => observes_accrues _ _ _

namespace Step

variable {s : Step} {b b' : Builder} {w w' : Workshop}

/-- The channels that a call may put somewhere: those that the caller brings,
and new ones. -/
def Puts (s : Step) (w : Workshop) (k : ComponentKey) : Prop :=
  k ∈ s.brought.map Channel.key ∨ w.nextComponent ≤ k.number

/-- What a call finds when it is made: all that stands in the flow was made
before, and the channels that the caller brings are known there. -/
structure Finds (s : Step) (b : Builder) (w : Workshop) : Prop where
  given : ∀ x ∈ b.components, x.key.number < w.nextComponent
  known : ∀ c ∈ s.brought, b.Knows w c

namespace Finds

theorem later {w₁ : Workshop} (h : s.Finds b w)
    (hle : w.nextComponent ≤ w₁.nextComponent) :
    ∀ x ∈ b.components, x.key.number < w₁.nextComponent :=
  fun x hx => Nat.lt_of_lt_of_le (h.given x hx) hle

/-- What a call may put somewhere is no endpoint of the flow. -/
theorem spares_of_puts {k : ComponentKey} (h : s.Finds b w) (hk : s.Puts w k) :
    b.Spares k := by
  rcases hk with hk | hle
  · obtain ⟨c, hc, rfl⟩ := List.mem_map.1 hk
    exact (h.known c hc).spares
  · exact Builder.spares_of_new h.given hle

/-- A channel of the caller's that a call made or was handed can be put into
the flow. -/
theorem knows {c : Channel} {plan : ChannelPlan} {w₁ : Workshop} (h : s.Finds b w)
    (hsub : ∀ c ∈ plan.brought, c ∈ s.brought) (hm : Yields plan.make w c w₁) :
    b.Knows w₁ c := by
  have hle := (plan.make_leaves.of_yields hm).components
  rcases ChannelPlan.brought_or_made hm with hc | ⟨hle, hlt⟩
  · have hknows := h.known c (hsub c hc)
    exact ⟨Nat.lt_of_lt_of_le hknows.made hle, hknows.same⟩
  · exact .of_new h.given hle hlt

end Finds

/-- The channels that side flows are given were there when the first of the
flows is assembled. -/
theorem Finds.given_of_sides {plan : EndpointPlan}
    {sides : List (ChannelPlan × List Step)} {seeds : List Channel}
    {w₁ w₂ : Workshop} (hf : (Step.endpoint plan sides).Finds b w)
    (hle : w.nextComponent ≤ w₁.nextComponent)
    (hs : YieldsAll (fun side => side.1.make) w₁ sides seeds w₂) :
    ∀ k ∈ (seeds.zip (sides.map Prod.snd)).flatMap Builder.givenKeys,
      k.number < w₂.nextComponent := by
  have hle₂ :=
    (supplied_of_yieldsAll (fun side => side.1.make_leaves) hs).components
  have hmade : ∀ c ∈ (Step.endpoint plan sides).brought,
      c.key.number < w₂.nextComponent :=
    fun c hc => Nat.lt_of_lt_of_le (hf.known c hc).made (Nat.le_trans hle hle₂)
  intro k hk
  obtain ⟨⟨seed, steps⟩, hflow, hk⟩ := List.mem_flatMap.1 hk
  obtain ⟨hseed, hsteps⟩ := List.of_mem_zip hflow
  rcases List.mem_cons.1 hk with rfl | hk
  · rcases brought_or_made_of_sides hs seed hseed with hc | ⟨-, hlt⟩
    · exact hmade seed (List.mem_append_left _ hc)
    · exact hlt
  · obtain ⟨c, hc, rfl⟩ := List.mem_map.1 hk
    refine hmade c ?_
    rw [brought_eq]
    exact List.mem_append_right _ (List.mem_flatMap.2 ⟨steps, hsteps, hc⟩)

/-- What a flow goes on through can be put into it. -/
theorem Finds.knows_source {plan : SourcePlan} {source : ChannelSource}
    {w₁ : Workshop} (hf : (Step.channel plan).Finds b w)
    (hm : Yields plan.make w source w₁) :
    ∀ c, source = .channel c → b.Knows w₁ c := by
  rintro c rfl
  cases plan with
  | channel plan =>
      obtain ⟨_, hm, heq⟩ := yields_map.1 (by simpa only [SourcePlan.make] using hm)
      cases heq
      exact hf.knows (fun c hc => List.mem_append_left _ hc) hm
  | named name => cases (yields_pure.1 (by simpa only [SourcePlan.make] using hm)).1
  | fixedSubscriber id =>
      cases (yields_pure.1 (by simpa only [SourcePlan.make] using hm)).1

theorem follows_channel {plan : SourcePlan} (hf : (Step.channel plan).Finds b w)
    (h : Yields ((Step.channel plan).assemble b) w b' w') : b.Extends b' := by
  obtain ⟨source, w₁, hm, hy⟩ := of_yields_channel h
  exact Builder.extends_channel
    (hf.later (plan.make_leaves.of_yields hm).components) (hf.knows_source hm) hy

theorem follows_endpoint {plan : EndpointPlan}
    {sides : List (ChannelPlan × List Step)}
    (hf : (Step.endpoint plan sides).Finds b w)
    (h : Yields ((Step.endpoint plan sides).assemble b) w b' w') :
    b.Follows ((Step.endpoint plan sides).Puts w) b' := by
  obtain ⟨handler, w₁, seeds, w₂, spec, input, w₃, branches, w₄, closed, w₅,
    hm, hs, hi, hbr, hopen, hy⟩ :=
    of_yields_endpoint h
  obtain ⟨e, rfl, hfresh, -, hreads, -⟩ := Builder.wired_of_yields hy
  have hle₂ : w.nextComponent ≤ w₂.nextComponent :=
    Nat.le_trans (plan.handler.make_leaves.of_yields hm).components
      (supplied_of_yieldsAll (fun side => side.1.make_leaves) hs).components
  have hle₃ := ((resolveInput_leaves _ _).of_yields hi).components
  have hle₅ : w₃.nextComponent ≤ w₅.nextComponent :=
    Nat.le_trans (Builder.accrues_of_runBranches hbr).components
      ((b.leaveOpen_adds branches).of_yields hopen.mapM).components
  by_cases hnil : closed.map Branch.registry = []
  · rw [hnil]
    refine .behind (Builder.extends_wired hreads (fun c hc => ?_) fun x hx => ?_)
    · rw [hc] at hi
      exact (yields_pure.1 hi).1
    · have hle := Nat.le_trans hle₂ (Nat.le_trans hle₃ hle₅)
      exact hfresh.ne_of_lt (hf.later hle x (b.registry_subset_components hx))
  · refine .sided hnil fun c hc => ?_
    rcases of_yields_resolveInput hi
      with ⟨d, hcurrent, rfl, -⟩ | ⟨name, -, rfl, -⟩ | ⟨d, -, rfl, hkey, -⟩
    · cases hc
      exact .inl (Builder.currentKey?_eq_some.2 ⟨_, hcurrent, rfl⟩)
    · cases hc
    · cases hc
      exact .inr (.inr (by rw [hkey]; exact hle₂))

theorem follows_wireTap {plan : TapPlan} {destination : Destination}
    (hf : (Step.wireTap plan destination).Finds b w)
    (h : Yields ((Step.wireTap plan destination).assemble b) w b' w') :
    b.Extends b' := by
  obtain ⟨opening, w₁, b₁, c, w₂, flow, w₃, tap, ho, ht, -, hy⟩ :=
    of_yields_wireTap h
  obtain ⟨closed, _, -, -, rfl⟩ := Builder.of_yields_finishTap hy
  exact (Builder.extends_tapPoint
    (hf.later (destination.openUp_leaves.of_yields ho).components) ht).trans
    (b₁.extends_holding closed)

theorem follows_intercept {plan : InterceptorPlan}
    (hf : (Step.intercept plan).Finds b w)
    (h : Yields ((Step.intercept plan).assemble b) w b' w') : b.Extends b' := by
  obtain ⟨interceptor, w₁, hm, hy⟩ := of_yields_intercept h
  obtain ⟨c, _, ht, -⟩ := Builder.of_yields_intercept hy
  exact Builder.extends_tapPoint
    (hf.later (plan.make_leaves.of_yields hm).components) ht

/-- The channel of a fan-out can be put into the flow, too. -/
theorem Finds.knows_fanOut {plan : FanOutPlan} {subscribers : List (List Step)}
    {given : Option Channel} {c : Channel} {w₁ w₂ : Workshop}
    (hf : (Step.publishSubscribe plan subscribers).Finds b w)
    (hg : Yields (plan.channel.mapM ChannelPlan.make) w given w₁)
    (hc : Yields (Builder.fanOutChannel plan given) w₁ c w₂) :
    w.nextComponent ≤ w₂.nextComponent ∧ b.Knows w₂ c := by
  have hle₁ := ((optional_make_leaves plan.channel).of_yields hg).components
  have hle₂ := ((Builder.fanOutChannel_leaves plan given).of_yields hc).components
  refine ⟨Nat.le_trans hle₁ hle₂, ?_⟩
  rcases Builder.of_yields_fanOutChannel hc with ⟨rfl, rfl⟩ | ⟨rfl, hkey, rfl⟩
  · cases hplan : plan.channel with
    | none =>
        rw [hplan] at hg
        cases (yields_pure.1 hg).1
    | some channel =>
        rw [hplan] at hg
        obtain ⟨_, hm, heq⟩ := yields_map.1 hg
        cases heq
        refine hf.knows (fun c hc => List.mem_append_left _ ?_) hm
        simpa [ownBrought, FanOutPlan.brought, hplan] using hc
  · exact .of_new hf.given (by rw [hkey]; exact hle₁)
      (by rw [hkey]; exact Nat.lt_succ_self _)

theorem follows_publishSubscribe {plan : FanOutPlan}
    {subscribers : List (List Step)}
    (hf : (Step.publishSubscribe plan subscribers).Finds b w)
    (h : Yields ((Step.publishSubscribe plan subscribers).assemble b) w b' w') :
    b.Extends b' := by
  obtain ⟨given, w₁, c, w₂, b₁, w₃, branches, w₄, hg, hc, hopen, -, hy⟩ :=
    of_yields_publishSubscribe h
  obtain ⟨closed, -, rfl⟩ := Builder.of_yields_finishFanOut hy
  obtain ⟨hle, hknows⟩ := hf.knows_fanOut hg hc
  refine Builder.Extends.trans ?_ (b₁.extends_absorb closed)
  rcases Builder.of_yields_openFanOut hopen with ⟨-, rfl, -⟩ | ⟨-, hopen⟩
  · exact .refl b₁
  · refine Builder.extends_channel (hf.later hle) ?_ hopen
    rintro _ ⟨⟩
    exact hknows

/-- A router is attached, and behind it its branches follow, which may meet on
a channel that a bridge reads. -/
theorem routed_of_yields (hf : s.Finds b w) (hr : s.routes = true)
    (h : Yields (s.assemble b) w b' w') :
    ∃ spec w₁ b₁ w₂ branches, w.nextComponent ≤ w₁.nextComponent ∧
      Yields (b.attach spec) w₁ b₁ w₂ ∧
      (s.flows = [] → branches = []) ∧
      (b' = b₁.absorb branches ∨
        ∃ m e, b₁.Spares m.key ∧ e.handler.producesReplies = true ∧
          e.input = .channel m ∧
          (∀ x ∈ (b₁.mergedOn branches m).registry.components, x.key ≠ e.key) ∧
          b' = (b₁.mergedOn branches m).wired ⟨.channel m, none⟩ [] e) := by
  obtain ⟨st, w₁, branches, w₂, hst, hbr, default, r, w₃, spec, b₁, w₄, -, hrec,
    -, -, ha, hy⟩ :=
    routedTo_of_yields hr h
  obtain ⟨hb, hseeded⟩ := seeded_of_stage hr hst
  rw [hb] at hbr
  have hgiven := hseeded.given hr fun c hc => (hf.known c hc).made
  have hle : w.nextComponent ≤ w₃.nextComponent := Nat.le_trans hseeded.le
    (Nat.le_trans (Builder.stems_of_runBranches hgiven hbr).1
      ((b.reconcile_adds branches default).of_yields hrec).components)
  have hnil : s.flows = [] → r.branches = [] := by
    intro hflows
    have hseeds : st.flows = [] :=
      List.map_eq_nil_iff.1 (hseeded.steps.trans hflows)
    rw [hseeds] at hbr
    obtain rfl := YieldsAll.eq_nil hbr
    rcases Builder.of_yields_reconcile hrec
      with ⟨_, _, -, hconverge, -⟩ | ⟨-, hsame, -⟩
    · exact YieldsAll.eq_nil hconverge
    · exact hsame
  refine ⟨spec, { w₃ with nextHandler := w₃.nextHandler + 1 }, b₁, w₄, r.branches,
    hle, ha, hnil, ?_⟩
  rcases Builder.of_yields_absorbMerged hy with ⟨-, rfl, -⟩ | ⟨m, hm, hy⟩
  · exact .inl rfl
  · rcases Builder.of_yields_reconcile hrec
      with ⟨merge, w₅, hmerge, hconverge, hsome⟩ | ⟨-, -, hnone, -⟩
    · obtain rfl := Option.some.inj (hm.symm.trans hsome)
      obtain ⟨hstems, hlt⟩ := Builder.stems_of_mergeChannel hgiven hbr hmerge
      have hle₅ :=
        ((Builder.mergeChannel_leaves branches).of_yields hmerge).components
      have hle₃ : w₅.nextComponent ≤ w₃.nextComponent :=
        ((b.converge_adds branches m).of_yields hconverge.mapM).components
      have hle₄ : w₃.nextComponent ≤ w₄.nextComponent :=
        ((b.attach_adds spec).of_yields ha).components
      have hputs : s.Puts w m.key := by
        rcases hstems with hk | hk
        · rcases List.mem_append.1 ((hseeded.perm hr).subset hk) with hk | hk
          · obtain ⟨flow, hflow, hkey⟩ := List.mem_map.1 hk
            exact .inr (hkey ▸ (hseeded.made flow hflow).1)
          · exact .inl hk
        · exact .inr (Nat.le_trans hseeded.le hk)
      have hspares : b₁.Spares m.key := (hf.spares_of_puts hputs).attach
        (w := { w₃ with nextHandler := w₃.nextHandler + 1 })
        (Nat.lt_of_lt_of_le hlt hle₃) ha
      have hfree : ∀ x ∈ (b₁.mergedOn r.branches m).registry.components,
          x.key.number < w₄.nextComponent := by
        intro x hx
        have hparts := (b₁.condenses_mergedOn r.branches m).subperm.subset
          (Builder.registry_subset_components _ hx)
        simp only [List.mem_append, List.mem_singleton] at hparts
        rcases hparts with (hx | hx) | rfl
        · exact Builder.given_of_attach
            (w := { w₃ with nextHandler := w₃.nextHandler + 1 })
            (hf.later hle) ha x hx
        · refine Nat.lt_of_lt_of_le
            (Builder.lt_of_converge (fun x hx => ?_) hconverge x hx) hle₄
          exact Nat.lt_of_lt_of_le
            ((Builder.stems_of_runBranches hgiven hbr).2 x hx).2 hle₅
        · exact Nat.lt_of_lt_of_le hlt (Nat.le_trans hle₃ hle₄)
      obtain ⟨input, w₆, hi, hw⟩ :=
        Builder.of_yields_attach (Builder.of_yields_bridge hy)
      obtain ⟨rfl, rfl⟩ := yields_pure.1 hi
      obtain ⟨e, rfl, hfresh, hhandler, hreads, -⟩ := Builder.wired_of_yields hw
      exact .inr ⟨m, e, hspares, by rw [hhandler]; rfl, hreads,
        fun x hx => hfresh.ne_of_lt (hfree x hx), rfl⟩
    · rw [hnone] at hm
      cases hm

theorem follows_routed (hf : s.Finds b w) (hr : s.routes = true)
    (h : Yields (s.assemble b) w b' w') :
    b.Follows (s.Puts w) b' := by
  obtain ⟨spec, w₁, b₁, w₂, branches, hle, ha, -, hb⟩ := routed_of_yields hf hr h
  obtain ⟨hextends, hnone⟩ := Builder.extends_attach
    (fun x hx => hf.later hle x (b.registry_subset_components hx)) ha
  rcases hb with rfl | ⟨m, e, hspares, -, hreads, hfresh, rfl⟩
  · exact .behind (hextends.trans (b₁.extends_absorb branches))
  · refine .met hextends hnone hspares
      (Builder.extends_wired hreads (fun c hc => ?_) hfresh)
    cases hc
    rfl

theorem gathered_of_yields {plan : ScatterGatherPlan} {release : Release}
    {scattering : Scattering} {gather : Channel}
    (h : Yields (b.finishScatterGather plan release scattering gather) w b' w') :
    ∃ spec w₁ b₁ w₂, w.nextComponent ≤ w₁.nextComponent ∧
      Yields (b.attach spec) w₁ b₁ w₂ ∧ b₁.Extends b' ∧
      b₁.registry.components ⊆ b'.registry.components := by
  obtain ⟨branches, w₁, spec, b₁, w₂, reader, gatherer, hconverge, -, ha, -,
    -, -, -, rfl, -⟩ :=
    Builder.gathered_of_yields h
  refine ⟨spec, { w₁ with nextHandler := w₁.nextHandler + 1 + 1 }, b₁, w₂,
    ?_, ha, ?_, ?_⟩
  · exact ((b.converge_adds scattering.branches gather).of_yields
      hconverge.mapM).components
  · exact ((b₁.extends_posted _ reader).trans
      (Builder.extends_absorb _ branches)).trans
      (Builder.extends_posted _ gather (some gatherer))
  · have habsorbed := Registry.subset_foldl_extend (branches.map Branch.registry)
      (b₁.posted scattering.channel reader).registry
    exact List.Subset.trans (b₁.subset_posted _ reader)
      (List.Subset.trans habsorbed
        (Builder.subset_posted
          ((b₁.posted scattering.channel reader).absorb branches) gather
          (some gatherer)))

/-- A scatter-gather is attached, and all that belongs to it follows behind
it. -/
theorem scattered_of_yields {plan : ScatterGatherPlan} {scatter : Scatter}
    (h : Yields ((Step.scatterGather plan scatter).assemble b) w b' w') :
    ∃ spec w₁ b₁ w₂, w.nextComponent ≤ w₁.nextComponent ∧
      Yields (b.attach spec) w₁ b₁ w₂ ∧ b₁.Extends b' ∧
      b₁.registry.components ⊆ b'.registry.components := by
  cases scatter with
  | recipients list members =>
      obtain ⟨release, w₁, parts, w₂, gather, scattering, w₃, hrelease, hparts,
        -, -, -, hbr, hy⟩ :=
        of_yields_scatterRecipients h
      obtain ⟨spec, w₄, b₁, w₅, hle, hattach, hextends⟩ := gathered_of_yields hy
      have hle₁ := (plan.gather.release.make_leaves.of_yields hrelease).components
      have hle₂ := ((list.make_leaves members).of_yields hparts).components
      have hle₃ : w₂.nextComponent + 1 + 1 ≤ w₃.nextComponent :=
        (Builder.accrues_of_runBranches hbr).components
      exact ⟨spec, w₄, b₁, w₅, by omega, hattach, hextends⟩
  | publish fan subscribers =>
      obtain ⟨release, w₁, given, w₂, gather, scattering, w₃, w₄, hrelease, hg,
        -, -, -, hc, hbr, hy⟩ :=
        of_yields_scatterPublish h
      obtain ⟨spec, w₅, b₁, w₆, hle, hattach, hextends⟩ := gathered_of_yields hy
      have hle₁ := (plan.gather.release.make_leaves.of_yields hrelease).components
      have hle₂ := ((optional_make_leaves fan.channel).of_yields hg).components
      have hle₃ : w₂.nextComponent + 1 ≤ w₃.nextComponent :=
        ((Builder.fanOutChannel_leaves fan given).of_yields hc).components
      have hle₄ := (Builder.accrues_of_runBranches hbr).components
      exact ⟨spec, w₅, b₁, w₆, by omega, hattach, hextends⟩

theorem follows_scatterGather {plan : ScatterGatherPlan} {scatter : Scatter}
    (hf : (Step.scatterGather plan scatter).Finds b w)
    (h : Yields ((Step.scatterGather plan scatter).assemble b) w b' w') :
    b.Extends b' := by
  obtain ⟨spec, w₁, b₁, w₂, hle, hattach, hextends, -⟩ := scattered_of_yields h
  exact (Builder.extends_attach
    (fun x hx => hf.later hle x (b.registry_subset_components hx)) hattach).1.trans
    hextends

/-- Whatever a call does to the order of its flow is one of three things. -/
theorem follows_of_yields (hf : s.Finds b w) (hfresh : s.isFresh = false)
    (h : Yields (s.assemble b) w b' w') :
    b.Follows (s.Puts w) b' := by
  cases s with
  | channel => exact .behind (follows_channel hf h)
  | endpoint => exact follows_endpoint hf h
  | wireTap => exact .behind (follows_wireTap hf h)
  | intercept => exact .behind (follows_intercept hf h)
  | route | routeToRecipients => exact follows_routed hf rfl h
  | publishSubscribe => exact .behind (follows_publishSubscribe hf h)
  | scatterGather => exact .behind (follows_scatterGather hf h)
  | withId =>
      rcases of_yields_withId h with ⟨-, rfl, -⟩ | ⟨-, rfl, -⟩
      · exact .behind (.refl _)
      · exact .behind
          (.of_same rfl rfl rfl rfl List.prefix_rfl (List.Subset.refl _))
  | withSession =>
      rcases of_yields_withSession h with ⟨-, rfl, -⟩ | ⟨-, rfl, -⟩
      · exact .behind (.refl _)
      · exact .behind
          (.of_same rfl rfl rfl rfl List.prefix_rfl (List.Subset.refl _))
  | fresh => cases hfresh
  | faulty cause =>
      rw [assemble, Builder.yields_guarded] at h
      exact absurd h not_yields_throw

end Step

end FlowAssembly
