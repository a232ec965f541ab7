import FlowAssembly.Proofs.Drawing
import Mathlib.Data.List.Pairwise
import Mathlib.Data.List.Perm.Subperm

/-!
# The stock of a builder

What stands in a builder, in its registry and in the flows that it holds back,
whatever the order. Every operation of a builder makes one list of components
out of several: registries are added to one another, a component is put behind
them, a channel moves to the end. Whatever is done, the result `Condenses` its
parts: nothing stands in it that did not stand in a part, and no key is lost.
What may be lost is a component whose key another part has too.

Endpoints and sources are never shared between parts, and neither are the
channels that a caller has in mind (`own`). Where that is so, the parts are
`Clear`, and what is not shared stands in the whole just as it stood in its
part.
-/

namespace FlowAssembly

theorem subperm_map {α β : Type} {l l' : List α} (h : l.Subperm l') (f : α → β) :
    (l.map f).Subperm (l'.map f) := by
  obtain ⟨k, hp, hs⟩ := h
  exact ⟨k.map f, hp.map f, hs.map f⟩

/-! ## What stands in several parts -/

namespace Component

/-- Whether it is an endpoint or a source. -/
def isWorker : Component → Bool
  | .channel _ => false
  | .endpoint _ | .source _ => true

/-- Whether it stands in one place only: a worker does, and so does a channel
of the given kind. -/
def marked (own : Channel → Bool) : Component → Bool
  | .channel c => own c
  | .endpoint _ | .source _ => true

/-- The key of a component, and whether it is marked. -/
def stamp (own : Channel → Bool) (c : Component) : ComponentKey × Bool :=
  (c.key, c.marked own)

/-- The component with its output set, if it has the given key. -/
def boundTo (key : ComponentKey) (target : Target) (c : Component) : Component :=
  if c.key = key then c.withOutput target else c

variable {own : Channel → Bool}

theorem marked_of_isWorker {c : Component} (h : c.isWorker = true) :
    c.marked own = true := by
  cases c with
  | channel c => cases h
  | endpoint e => rfl
  | source s => rfl

@[simp]
theorem isWorker_withOutput (target : Target) (c : Component) :
    (c.withOutput target).isWorker = c.isWorker := by
  cases c <;> rfl

@[simp]
theorem marked_withOutput (target : Target) (c : Component) :
    (c.withOutput target).marked own = c.marked own := by
  cases c <;> rfl

@[simp]
theorem key_boundTo (key : ComponentKey) (target : Target) (c : Component) :
    (c.boundTo key target).key = c.key := by
  unfold boundTo
  split
  · exact key_withOutput target c
  · rfl

@[simp]
theorem stamp_boundTo (key : ComponentKey) (target : Target) (c : Component) :
    (c.boundTo key target).stamp own = c.stamp own := by
  unfold boundTo
  split
  · simp [stamp]
  · rfl

theorem boundTo_of_ne {key : ComponentKey} {c : Component} (h : c.key ≠ key)
    (target : Target) :
    c.boundTo key target = c :=
  if_neg h

@[simp]
theorem boundTo_channel (key : ComponentKey) (target : Target) (c : Channel) :
    (Component.channel c).boundTo key target = .channel c := by
  unfold boundTo
  split <;> rfl

end Component

/-- Of two stamped keys at least one is shared, or they differ. -/
def Unshared (a b : ComponentKey × Bool) : Prop :=
  a.2 = true ∨ b.2 = true → a.1 ≠ b.1

instance : Std.Symm Unshared :=
  ⟨fun _ _ h hm => (h hm.symm).symm⟩

/-- What is marked shares its key with nothing else. -/
def Clear (own : Channel → Bool) (cs : List Component) : Prop :=
  (cs.map (Component.stamp own)).Pairwise Unshared

namespace Clear

variable {own : Channel → Bool} {cs cs' : List Component}

/-- Whatever is left of clear parts is clear, whether or not outputs were
set. -/
theorem of_subperm (h : Clear own cs)
    (hs : (cs'.map (Component.stamp own)).Subperm (cs.map (Component.stamp own))) :
    Clear own cs' := by
  obtain ⟨l, hp, hl⟩ := hs
  exact (hp.pairwise_iff fun h => Std.Symm.symm _ _ h).1
    (List.Pairwise.sublist hl h)

theorem append_iff : Clear own (cs ++ cs') ↔
      Clear own cs ∧ Clear own cs' ∧
      ∀ c ∈ cs, ∀ c' ∈ cs', c.marked own = true ∨ c'.marked own = true →
        c.key ≠ c'.key := by
  unfold Clear
  rw [List.map_append, List.pairwise_append]
  simp only [List.forall_mem_map, Unshared, Component.stamp]

/-- A marked component is determined by its key. -/
theorem eq (h : Clear own cs) {c c' : Component} (hm : c ∈ cs) (hm' : c' ∈ cs)
    (hmark : c.marked own = true) (hk : c.key = c'.key) : c = c' := by
  by_contra hne
  have : Std.Symm fun a b : Component => Unshared (a.stamp own) (b.stamp own) :=
    ⟨fun _ _ => Std.Symm.symm _ _⟩
  exact (List.pairwise_map.1 h).forall hm hm' hne (.inl hmark) hk

/-- A key that stands on both sides is that of nothing that is marked. -/
theorem shared {a b : List Component} (h : Clear own cs) (hp : cs.Perm (a ++ b))
    {k : ComponentKey} (hk : k ∈ a.map Component.key)
    (hk' : k ∈ b.map Component.key) :
    ∀ x ∈ cs, x.marked own = true → x.key ≠ k := by
  obtain ⟨y, hy, rfl⟩ := List.mem_map.1 hk
  obtain ⟨z, hz, hkey⟩ := List.mem_map.1 hk'
  have hapart := (append_iff.1 (h.of_subperm (hp.symm.map _).subperm)).2.2
  intro x hx hmark hxy
  rcases List.mem_append.1 (hp.subset hx) with hx | hx
  · exact hapart x hx z hz (.inl hmark) (hxy.trans hkey.symm)
  · exact hapart y hy x hx (.inr hmark) hxy.symm

end Clear

/-- One list of components was made of the parts: it holds nothing else, and
has each of their keys. -/
structure Condenses (parts whole : List Component) : Prop where
  subperm : whole.Subperm parts
  keys : ∀ c ∈ parts, ∃ c' ∈ whole, c'.key = c.key

namespace Condenses

variable {own : Channel → Bool} {a b c d parts whole : List Component}

theorem of_perm (h : b.Perm a) : Condenses a b :=
  ⟨h.subperm, fun c hc => ⟨c, h.symm.subset hc, rfl⟩⟩

theorem refl (a : List Component) : Condenses a a := of_perm (.refl a)

theorem trans (h : Condenses a b) (h' : Condenses b c) : Condenses a c := by
  refine ⟨h'.subperm.trans h.subperm, fun x hx => ?_⟩
  obtain ⟨y, hy, hxy⟩ := h.keys x hx
  obtain ⟨z, hz, hyz⟩ := h'.keys y hy
  exact ⟨z, hz, hyz.trans hxy⟩

theorem append (h : Condenses a b) (h' : Condenses c d) :
    Condenses (a ++ c) (b ++ d) := by
  refine ⟨h.subperm.append h'.subperm, fun x hx => ?_⟩
  rcases List.mem_append.1 hx with hx | hx
  · obtain ⟨y, hy, hxy⟩ := h.keys x hx
    exact ⟨y, List.mem_append_left _ hy, hxy⟩
  · obtain ⟨y, hy, hxy⟩ := h'.keys x hx
    exact ⟨y, List.mem_append_right _ hy, hxy⟩

theorem append_right (h : Condenses a b) (c : List Component) :
    Condenses (a ++ c) (b ++ c) :=
  h.append (refl c)

theorem perm_left (h : Condenses a c) (hp : a.Perm b) : Condenses b c :=
  (of_perm hp).trans h

theorem perm (h : Condenses a b) (ha : a.Perm c) (hb : b.Perm d) : Condenses c d :=
  (h.perm_left ha).trans (of_perm hb.symm)

theorem map (h : Condenses a b) {f : Component → Component}
    (hf : ∀ x, (f x).key = x.key) :
    Condenses (a.map f) (b.map f) := by
  refine ⟨subperm_map h.subperm f, fun x hx => ?_⟩
  obtain ⟨z, hz, rfl⟩ := List.mem_map.1 hx
  obtain ⟨y, hy, hxy⟩ := h.keys z hz
  exact ⟨f y, List.mem_map_of_mem hy, by rw [hf, hf, hxy]⟩

/-- What is marked is not lost. -/
theorem mem_iff (h : Condenses parts whole) (hc : Clear own parts) {c : Component}
    (hmark : c.marked own = true) :
    c ∈ whole ↔ c ∈ parts := by
  refine ⟨fun hm => h.subperm.subset hm, fun hm => ?_⟩
  obtain ⟨c', hm', hk⟩ := h.keys c hm
  rwa [hc.eq hm (h.subperm.subset hm') hmark hk.symm]

theorem mem_keys_iff (h : Condenses parts whole) {k : ComponentKey} :
    k ∈ whole.map Component.key ↔ k ∈ parts.map Component.key := by
  simp only [List.mem_map]
  constructor
  · rintro ⟨c, hm, rfl⟩
    exact ⟨c, h.subperm.subset hm, rfl⟩
  · rintro ⟨c, hm, rfl⟩
    exact h.keys c hm

end Condenses

/-! ## Registries -/

namespace Registry

/-- Adding what is there already adds nothing. -/
theorem condenses_of_contains {r : Registry} {c : Component}
    (hc : r.contains c.key = true) :
    Condenses (r.components ++ [c]) r.components := by
  refine ⟨(List.sublist_append_left _ _).subperm, fun x hx => ?_⟩
  rcases List.mem_append.1 hx with hx | hx
  · exact ⟨x, hx, rfl⟩
  · obtain rfl := List.mem_singleton.1 hx
    simpa using contains_iff.1 hc

theorem condenses_add (r : Registry) (c : Component) :
    Condenses (r.components ++ [c]) (r.add c).components := by
  rw [components_add]
  split
  · next hc => exact condenses_of_contains hc
  · exact .refl _

theorem condenses_extend (r other : Registry) :
    Condenses (r.components ++ other.components) (r.extend other).components := by
  rw [components_extend]
  refine ⟨(List.Sublist.append_left List.filter_sublist _).subperm, fun x hx => ?_⟩
  by_cases hc : r.contains x.key = true
  · obtain ⟨y, hy, hk⟩ := List.mem_map.1 (contains_iff.1 hc)
    exact ⟨y, List.mem_append_left _ hy, hk⟩
  · refine ⟨x, ?_, rfl⟩
    rcases List.mem_append.1 hx with hx | hx
    · exact List.mem_append_left _ hx
    · exact List.mem_append_right _ (List.mem_filter.2 ⟨hx, by simp [hc]⟩)

theorem condenses_foldl_extend (others : List Registry) (r : Registry) :
    Condenses (r.components ++ others.flatMap components)
      (others.foldl extend r).components := by
  induction others generalizing r with
  | nil => simpa using Condenses.refl r.components
  | cons other rest ih =>
      rw [List.flatMap_cons, ← List.append_assoc, List.foldl_cons]
      exact ((condenses_extend r other).append_right _).trans (ih (r.extend other))

theorem perm_relocateToEnd (r : Registry) (key : ComponentKey) :
    (r.relocateToEnd key).components.Perm r.components := by
  rw [components_relocateToEnd]
  have h :=
    List.filter_append_perm (fun c : Component => decide (c.key ≠ key)) r.components
  simpa using h

theorem condenses_extendBefore (r : Registry) (trailing : Option ComponentKey)
    (others : List Registry) :
    Condenses (r.components ++ others.flatMap components)
      (r.extendBefore trailing others).components := by
  have h := condenses_foldl_extend others r
  unfold extendBefore
  dsimp only
  split
  · exact h.trans (.of_perm (perm_relocateToEnd _ _))
  · exact h

/-! A registry keeps what it has, whatever is added to it or moved in it. -/

theorem subset_add (r : Registry) (c : Component) :
    r.components ⊆ (r.add c).components := by
  rw [components_add]
  split
  · exact List.Subset.refl _
  · exact List.subset_append_left _ _

theorem mem_add {r : Registry} {c : Component}
    (h : ∀ x ∈ r.components, x.key ≠ c.key) : c ∈ (r.add c).components := by
  have hc : ¬ r.contains c.key = true := by
    rw [contains_iff, List.mem_map]
    rintro ⟨x, hm, hk⟩
    exact h x hm hk
  rw [components_add, if_neg hc]
  exact List.mem_append_right _ (List.mem_singleton_self c)

theorem subset_extend (r other : Registry) :
    r.components ⊆ (r.extend other).components := by
  rw [components_extend]
  exact List.subset_append_left _ _

theorem subset_foldl_extend (others : List Registry) (r : Registry) :
    r.components ⊆ (others.foldl extend r).components := by
  induction others generalizing r with
  | nil => exact List.Subset.refl _
  | cons other rest ih =>
      exact List.Subset.trans (r.subset_extend other) (ih (r.extend other))

theorem subset_extendBefore (r : Registry) (trailing : Option ComponentKey)
    (others : List Registry) :
    r.components ⊆ (r.extendBefore trailing others).components := by
  have h := subset_foldl_extend others r
  unfold extendBefore
  dsimp only
  split
  · exact List.Subset.trans h (perm_relocateToEnd _ _).symm.subset
  · exact h

end Registry

/-! ## Builders -/

namespace Builder

/-- What stands in a flow, and in the flows that it holds back. -/
def components (b : Builder) : List Component :=
  (b.registry :: b.cursor.deferred).flatMap Registry.components

/-- What binding the pending output to a target does to a component. -/
def bound (b : Builder) (target : Target) : Component → Component :=
  match b.cursor.pending with
  | some pending => Component.boundTo pending.component target
  | none => id

variable {own : Channel → Bool}

@[simp]
theorem key_bound (b : Builder) (target : Target) (c : Component) :
    (b.bound target c).key = c.key := by
  unfold bound
  cases b.cursor.pending with
  | some pending => exact Component.key_boundTo ..
  | none => rfl

@[simp]
theorem bound_channel (b : Builder) (target : Target) (c : Channel) :
    b.bound target (.channel c) = .channel c := by
  unfold bound
  cases b.cursor.pending with
  | some pending => exact Component.boundTo_channel ..
  | none => rfl

theorem components_eq (b : Builder) :
    b.components = b.registry.components ++
      b.cursor.deferred.flatMap Registry.components :=
  rfl

theorem components_eq_of_deferred {b : Builder} (h : b.cursor.deferred = []) :
    b.components = b.registry.components := by
  rw [components_eq, h]
  exact List.append_nil _

/-- Only the registry and the cursor count. -/
theorem components_congr {b b' : Builder} (hr : b'.registry = b.registry)
    (hc : b'.cursor = b.cursor) :
    b'.components = b.components := by
  rw [components_eq, components_eq, hr, hc]

/-- A builder that starts afresh has nothing registered. -/
theorem components_blank {b : Builder} (hr : b.registry = .empty)
    (hc : b.cursor = {}) : b.components = [] := by
  rw [components_eq, hr, hc]
  rfl

theorem components_bindPending (b : Builder) (target : Target) :
    (b.bindPending target).registry.components =
      b.registry.components.map (b.bound target) := by
  unfold bindPending bound
  cases b.cursor.pending with
  | some pending => exact Registry.components_bindOutput ..
  | none => exact (List.map_id _).symm

theorem deferred_flushDeferred (b : Builder) :
    b.flushDeferred.cursor.deferred = [] := by
  unfold flushDeferred
  split
  · next hd => exact hd
  · rfl

theorem condenses_flushDeferred (b : Builder) :
    Condenses b.components b.flushDeferred.registry.components := by
  unfold flushDeferred
  split
  · next hd =>
      rw [components_eq_of_deferred hd]
      exact .refl _
  · exact Registry.condenses_extendBefore _ _ _

theorem subset_flushDeferred (b : Builder) :
    b.registry.components ⊆ b.flushDeferred.registry.components := by
  unfold flushDeferred
  split
  · exact List.Subset.refl _
  · exact Registry.subset_extendBefore _ _ _

theorem condenses_absorb (b : Builder) (branches : List Branch) :
    Condenses (b.components ++ branches.flatMap fun br => br.registry.components)
      (b.absorb branches).components := by
  have h :=
    Registry.condenses_foldl_extend (branches.map Branch.registry) b.registry
  rw [List.flatMap_map] at h
  refine (h.append_right (b.cursor.deferred.flatMap Registry.components)).perm_left
    ?_
  rw [components_eq, List.append_assoc, List.append_assoc]
  exact List.perm_append_comm.append_left _

theorem condenses_mergedOn (b : Builder) (branches : List Branch)
    (merge : Channel) :
    Condenses
      (b.components ++ (branches.flatMap fun br => br.registry.components) ++
        [.channel merge]) (b.mergedOn branches merge).components := by
  refine ((b.condenses_absorb branches).append_right [.channel merge]).trans ?_
  generalize hd :
    (b.absorb branches).cursor.deferred.flatMap Registry.components = held
  have hwhole : (b.mergedOn branches merge).components =
      (if (b.absorb branches).registry.contains merge.key
        then (b.absorb branches).registry.relocateToEnd merge.key
        else (b.absorb branches).registry.add
          (.channel merge)).components ++ held := by
    rw [← hd]
    rfl
  rw [hwhole, components_eq, hd]
  refine Condenses.perm_left
    (a := ((b.absorb branches).registry.components ++ [.channel merge]) ++ held)
    ?_ ?_
  · refine Condenses.append_right ?_ held
    split
    · next hc =>
        exact (Registry.condenses_of_contains (c := .channel merge) hc).trans
          (.of_perm (Registry.perm_relocateToEnd _ _))
    · exact Registry.condenses_add _ _
  · rw [List.append_assoc, List.append_assoc]
    exact List.perm_append_comm.append_left _

/-- A merge channel that stands in a branch is only moved. -/
theorem condenses_mergedOn_of_mem {b : Builder} {branches : List Branch}
    {merge : Channel}
    (hm : merge.key ∈ (branches.flatMap fun br => br.registry.components).map
      Component.key) :
    Condenses (b.components ++ branches.flatMap fun br => br.registry.components)
      (b.mergedOn branches merge).components := by
  have hc : (b.absorb branches).registry.contains merge.key = true := by
    have h :=
      Registry.condenses_foldl_extend (branches.map Branch.registry) b.registry
    rw [List.flatMap_map] at h
    exact Registry.contains_iff.2 (h.mem_keys_iff.2 (by
      rw [List.map_append]
      exact List.mem_append_right _ hm))
  refine (b.condenses_absorb branches).trans (.of_perm ?_)
  unfold mergedOn
  dsimp only
  rw [if_pos hc]
  exact (Registry.perm_relocateToEnd _ _).append_right _

/-- The channel that is registered when a flow goes on through a source. -/
def sourceChannels : ChannelSource → List Component
  | .channel c => [.channel c]
  | .named _ | .fixedSubscriber _ => []

/-- What appending a source does to a component: a marker has no target to
bind anything to. -/
def boundBy (b : Builder) (source : ChannelSource) : Component → Component :=
  match source.target? with
  | some target => b.bound target
  | none => id

theorem channel_appended (b : Builder) (source : ChannelSource) :
    (b.appended source).cursor.channel = some source := rfl

theorem pending_appended (b : Builder) {source : ChannelSource} {target : Target}
    (h : source.target? = some target) :
    (b.appended source).cursor.pending = none := by
  match source with
  | .channel c =>
      exact pending_bindPending { b with registry := b.registry.add (.channel c) }
        (.channel c)
  | .named name => exact pending_bindPending b (.named name)
  | .fixedSubscriber id => cases h

theorem condenses_appended (b : Builder) (source : ChannelSource) :
    Condenses ((b.registry.components ++ sourceChannels source).map
      (b.boundBy source) ++ b.cursor.deferred.flatMap Registry.components)
      (b.appended source).components := by
  rw [components_eq]
  match source with
  | .channel c =>
      have hcursor :
          (b.appended (.channel c)).cursor.deferred = b.cursor.deferred :=
        deferred_bindPending { b with registry := b.registry.add (.channel c) }
          (.channel c)
      have hregistry : (b.appended (.channel c)).registry.components =
          (b.registry.add (.channel c)).components.map (b.bound (.channel c)) :=
        components_bindPending { b with registry := b.registry.add (.channel c) }
          (.channel c)
      rw [hcursor, hregistry]
      exact ((b.registry.condenses_add (.channel c)).map
        (b.key_bound _)).append_right _
  | .named name =>
      have hcursor :
          (b.appended (.named name)).cursor.deferred = b.cursor.deferred :=
        deferred_bindPending b (.named name)
      have hregistry : (b.appended (.named name)).registry.components =
          b.registry.components.map (b.bound (.named name)) :=
        components_bindPending b (.named name)
      rw [hcursor, hregistry, sourceChannels, List.append_nil]
      exact .refl _
  | .fixedSubscriber id =>
      simp only [sourceChannels, List.append_nil, boundBy, ChannelSource.target?,
        List.map_id_fun, id_eq]
      exact .refl _

/-- The channel that was made for an endpoint. -/
def madeChannels (input : ResolvedInput) : List Component :=
  input.made.toList.map Component.channel

theorem condenses_placeSides (b : Builder) (input : Target)
    (sides : List Registry) :
    Condenses (b.registry.components ++ sides.flatMap Registry.components)
      (b.placeSides input sides).registry.components := by
  unfold placeSides
  split
  · simpa using Condenses.refl b.registry.components
  · exact Registry.condenses_extendBefore _ _ _

theorem cursor_placeSides (b : Builder) (input : Target) (sides : List Registry) :
    (b.placeSides input sides).cursor = b.cursor := by
  unfold placeSides
  split <;> rfl

/-- The builder between placing the sides of an endpoint and binding what came
before it. -/
def placed (b : Builder) (input : ResolvedInput) (sides : List Registry) :
    Builder :=
  let b := placeSides { b with cursor := { b.cursor with channel := none } }
    input.target sides
  match input.made with
  | some channel => { b with registry := b.registry.add (.channel channel) }
  | none => b

theorem ready_eq (b : Builder) (input : ResolvedInput) (sides : List Registry) :
    b.ready input sides = (b.placed input sides).bindPending input.target := rfl

theorem cursor_placed (b : Builder) (input : ResolvedInput)
    (sides : List Registry) :
    (b.placed input sides).cursor = { b.cursor with channel := none } := by
  unfold placed
  dsimp only
  split <;> exact cursor_placeSides ..

theorem condenses_placed (b : Builder) (input : ResolvedInput)
    (sides : List Registry) :
    Condenses (b.registry.components ++ sides.flatMap Registry.components ++
      madeChannels input) (b.placed input sides).registry.components := by
  have h := condenses_placeSides
    { b with cursor := { b.cursor with channel := none } } input.target sides
  unfold placed madeChannels
  dsimp only
  split
  · next c hm =>
      rw [hm]
      exact (h.append_right _).trans (Registry.condenses_add _ _)
  · next hm =>
      rw [hm]
      simpa using h

theorem condenses_ready (b : Builder) (input : ResolvedInput)
    (sides : List Registry) :
    Condenses
      ((b.registry.components ++ sides.flatMap Registry.components ++
          madeChannels input).map (b.bound input.target))
      (b.ready input sides).registry.components := by
  have hbound :
      (b.placed input sides).bound input.target = b.bound input.target := by
    unfold bound
    rw [cursor_placed]
  rw [ready_eq, components_bindPending, hbound]
  exact (b.condenses_placed input sides).map (b.key_bound _)

end Builder

end FlowAssembly
