import FlowAssembly.Builder.Attach

/-!
# Laws of the registry

What each operation on a registry does to the list of its components. The keys
of that list are distinct by construction, and no operation changes a
component but `bindOutput`, which sets an output and nothing else.
-/

namespace FlowAssembly

namespace Registry

theorem keys_eq_map (r : Registry) : r.keys = r.components.map Component.key := by
  simp only [keys, components, List.map_map]
  rfl

theorem nodup_keys (r : Registry) : (r.components.map Component.key).Nodup := by
  rw [← keys_eq_map]
  exact r.distinct

theorem contains_iff {r : Registry} {key : ComponentKey} :
    r.contains key = true ↔ key ∈ r.components.map Component.key := by
  rw [contains, List.contains_iff_mem, keys_eq_map]

@[simp]
theorem components_empty : empty.components = [] := rfl

theorem components_register (r : Registry) (c : Component) (name : Option String) :
    (r.register c name).components = if r.contains c.key then r.components
      else r.components ++ [c] := by
  unfold register
  split
  · rfl
  · simp [components]

theorem components_add (r : Registry) (c : Component) :
    (r.add c).components = if r.contains c.key then r.components
      else r.components ++ [c] :=
  components_register r c none

theorem components_relocateToEnd (r : Registry) (key : ComponentKey) :
    (r.relocateToEnd key).components = (r.components.filter fun c => c.key ≠ key) ++
      (r.components.filter fun c => c.key = key) := by
  simp only [components, relocateToEnd, List.map_append, List.filter_map]
  rfl

theorem components_bindOutput (r : Registry) (key : ComponentKey)
    (target : Target) :
    (r.bindOutput key target).components = r.components.map fun c =>
      if c.key = key then c.withOutput target else c := by
  simp only [components, bindOutput, List.map_map]
  refine List.map_congr_left fun e _ => ?_
  by_cases he : e.component.key = key
  · simp [Entry.key, he]
  · simp [Entry.key, he]

/-- Adding a registry appends what the first one does not have. -/
theorem components_extend (r other : Registry) :
    (r.extend other).components =
      r.components ++ other.components.filter fun c => !r.contains c.key := by
  unfold extend
  have hstep : ∀ (es : List Entry) (r : Registry), (es.map Entry.key).Nodup →
      (es.foldl (fun acc e => acc.register e.component e.name) r).components =
      r.components ++ (es.map Entry.component).filter fun c =>
        !r.contains c.key := by
    intro es
    induction es with
    | nil => intro r _; simp
    | cons e es ih =>
        intro r hd
        rw [List.map_cons, List.nodup_cons] at hd
        rw [List.foldl_cons, ih _ hd.2, components_register, List.map_cons,
          List.filter_cons]
        by_cases hc : r.contains e.component.key = true
        · have hr : r.register e.component e.name = r := by simp [register, hc]
          rw [hr]
          simp [hc]
        · -- Later entries have other keys, so registering this one does not
          -- shadow them.
          have hrest : ((es.map Entry.component).filter fun c =>
              !(r.register e.component e.name).contains c.key) =
                (es.map Entry.component).filter fun c => !r.contains c.key := by
            refine List.filter_congr fun c hm => ?_
            obtain ⟨e', he', rfl⟩ := List.mem_map.1 hm
            have hne : e'.component.key ≠ e.component.key := fun h =>
              hd.1 (List.mem_map.2 ⟨e', he', h⟩)
            have hiff : (r.register e.component e.name).contains e'.component.key =
                true ↔
                  r.contains e'.component.key = true := by
              rw [contains_iff, contains_iff, components_register, if_neg hc]
              simp [hne]
            rw [Bool.eq_iff_iff.2 hiff]
          rw [hrest, if_neg hc]
          simp [hc]
  exact hstep other.entries r other.distinct

end Registry

end FlowAssembly
