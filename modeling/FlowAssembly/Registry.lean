import FlowAssembly.Component

/-!
# The component registry

The components of a flow in the order in which they were registered, each
once. Registering a component again, or adding a registry that shares one,
keeps the place and the name of the first time.

That no key stands twice is a part of the type, so that a key determines its
entry and its place.
-/

namespace FlowAssembly

/-- A component with the name it was registered under, if it has one. -/
structure Entry where
  component : Component
  name : Option String

def Entry.key (e : Entry) : ComponentKey :=
  e.component.key

/-- Components in order of registration, with distinct keys. -/
structure Registry where
  entries : List Entry
  distinct : (entries.map Entry.key).Nodup

namespace Registry

/-- No components. -/
def empty : Registry :=
  ⟨[], by simp⟩

instance : Inhabited Registry := ⟨empty⟩

/-- The keys in order of registration. -/
def keys (r : Registry) : List ComponentKey :=
  r.entries.map Entry.key

/-- The components in order of registration. -/
def components (r : Registry) : List Component :=
  r.entries.map Entry.component

/-- Whether a component is registered. -/
def contains (r : Registry) (key : ComponentKey) : Bool :=
  r.keys.contains key

/-- The place of a component, counted from zero. -/
def position? (r : Registry) (key : ComponentKey) : Option Nat :=
  r.entries.findIdx? fun e => e.key = key

/-- The component with a key. -/
def get? (r : Registry) (key : ComponentKey) : Option Component :=
  (r.entries.find? fun e => e.key = key).map Entry.component

/-- The component that stands last. -/
def last? (r : Registry) : Option Component :=
  r.entries.getLast?.map Entry.component

/-- Whether a component stands last. -/
def endsWith (r : Registry) (key : ComponentKey) : Bool :=
  r.last?.map Component.key = some key

/-- Registers a component at the end, unless it is registered already. Without
a name it takes its own id. -/
def register (r : Registry) (component : Component) (name : Option String) :
    Registry :=
  if h : r.contains component.key then r
  else
    ⟨r.entries ++ [⟨component, name <|> component.id?⟩], by
      have h : component.key ∉ r.entries.map Entry.key := by
        simpa [contains, keys] using h
      rw [List.map_append, List.nodup_append]
      refine ⟨r.distinct, by simp, ?_⟩
      intro a ha b hb
      simp only [List.map_cons, List.map_nil, List.mem_singleton] at hb
      subst hb
      rintro rfl
      exact h ha⟩

/-- Registers a component at the end under its own id, unless it is
registered. -/
def add (r : Registry) (component : Component) : Registry :=
  r.register component none

/-- Registers the components of another registry in their order. -/
def extend (r other : Registry) : Registry :=
  other.entries.foldl (fun acc e => acc.register e.component e.name) r

/-- Moves a component behind all others, with its name. -/
def relocateToEnd (r : Registry) (key : ComponentKey) : Registry :=
  ⟨(r.entries.filter fun e => e.key ≠ key) ++
      (r.entries.filter fun e => e.key = key), by
        have hperm :
            List.Perm ((r.entries.filter fun e => e.key ≠ key) ++
              (r.entries.filter fun e => e.key = key)) r.entries := by
          have h := List.filter_append_perm
            (fun e : Entry => decide (e.key ≠ key)) r.entries
          simpa using h
        exact (hperm.map Entry.key).nodup_iff.2 r.distinct⟩

/-- Sets the output of an endpoint or a source. -/
def bindOutput (r : Registry) (key : ComponentKey) (target : Target) : Registry :=
  ⟨r.entries.map fun e =>
      if e.key = key then { e with component := e.component.withOutput target }
      else e, by
    have h : (fun e : Entry =>
        Entry.key (if e.key = key
          then { e with component := e.component.withOutput target } else e)) =
        Entry.key := by
      funext e
      split
      · simp [Entry.key]
      · rfl
    rw [List.map_map]
    show (List.map (Entry.key ∘ _) r.entries).Nodup
    rw [show (Entry.key ∘ fun e : Entry =>
      if e.key = key then { e with component := e.component.withOutput target }
      else e) = Entry.key from h]
    exact r.distinct⟩

/-- How many components are registered. -/
def size (r : Registry) : Nat :=
  r.entries.length

def isEmpty (r : Registry) : Bool :=
  r.entries.isEmpty

end Registry

end FlowAssembly
