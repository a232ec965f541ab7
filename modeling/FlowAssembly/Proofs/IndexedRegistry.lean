import FlowAssembly.Proofs.RegistryLaws
import Mathlib.Data.Finset.Insert
import Mathlib.Data.Finset.Dedup

/-!
# The registry with an index

A registry may be kept with the set of its keys beside the list of its
entries, so that a look-up asks the set before it searches the list. The two
are copies of one fact, which every operation has to keep in step: `register`
and `extend` add to both, while `relocateToEnd` takes an entry out of the list
and puts it back, and `bindOutput` writes over an entry, without a change to
the set.

However a registry came about (`Recipe`), its list and its set agree with each
other and with the registry whose keys are distinct by its type, operation by
operation (`Mirrors`). An entry that came about so has the id of its component
for a name if it was given none, and that is why taking it over once more
changes nothing. So registries that are flattened into one another come to the
same, however the flattening is nested.
-/

namespace FlowAssembly

/-- Entries in order, with the set of their keys beside them. -/
structure IndexedRegistry where
  entries : List Entry := []
  index : Finset ComponentKey := ∅

namespace IndexedRegistry

def contains (x : IndexedRegistry) (key : ComponentKey) : Bool :=
  key ∈ x.index

/-- The place of a component, counted from zero; the list is not searched for
a key that the set does not hold. -/
def position? (x : IndexedRegistry) (key : ComponentKey) : Option Nat :=
  if x.contains key then x.entries.findIdx? fun e => e.key = key else none

def get? (x : IndexedRegistry) (key : ComponentKey) : Option Component :=
  (x.position? key).bind fun p => x.entries[p]?.map Entry.component

/-- Registers a component at the end, unless the set holds its key. Without a
name it takes its own id. -/
def register (x : IndexedRegistry) (component : Component) (name : Option String) :
    IndexedRegistry :=
  if x.contains component.key then x
  else ⟨x.entries ++ [⟨component, name <|> component.id?⟩],
    insert component.key x.index⟩

/-- Registers the components of another registry in their order. -/
def extend (x other : IndexedRegistry) : IndexedRegistry :=
  other.entries.foldl (fun acc e => acc.register e.component e.name) x

/-- Takes an entry out of the list and puts it back at the end. -/
def relocateToEnd (x : IndexedRegistry) (key : ComponentKey) : IndexedRegistry :=
  match x.position? key with
  | some p => { x with entries := x.entries.eraseIdx p ++ x.entries[p]?.toList }
  | none => x

/-- Sets the output of the endpoint or the source that stands at the place of
a key. -/
def bindOutput (x : IndexedRegistry) (key : ComponentKey) (target : Target) :
    IndexedRegistry :=
  match x.position? key with
  | some p =>
      { x with
        entries := x.entries.modify p fun e => { e with
            component := e.component.withOutput target } }
  | none => x

/-- The set holds the keys of the list, no key stands twice in the list, and
each way to look a key up answers what the list says. -/
structure Coherent (x : IndexedRegistry) : Prop where
  index : ∀ key, key ∈ x.index ↔ ∃ e ∈ x.entries, e.key = key
  distinct : (x.entries.map Entry.key).Nodup
  contains : ∀ key, x.contains key = true ↔ ∃ e ∈ x.entries, e.key = key
  position : ∀ key p, x.position? key = some p ↔
    ∃ e, x.entries[p]? = some e ∧ e.key = key
  get : ∀ key c, x.get? key = some c ↔
    c.key = key ∧ ∃ e ∈ x.entries, e.component = c

/-- The list is that of the registry, and the set holds the keys of the
registry. -/
structure Mirrors (x : IndexedRegistry) (r : Registry) : Prop where
  entries : x.entries = r.entries
  index : x.index = r.keys.toFinset

end IndexedRegistry

/-! ## Places in a list with distinct keys -/

namespace Entry

variable {entries : List Entry} {key : ComponentKey} {p : Nat} {e : Entry}

/-- In a list with distinct keys a search for a key finds the one place where
it stands. -/
theorem findIdx?_eq_some_iff (hn : (entries.map Entry.key).Nodup) :
    entries.findIdx? (fun e => e.key = key) = some p ↔
      ∃ e, entries[p]? = some e ∧ e.key = key := by
  rw [List.findIdx?_eq_some_iff_getElem]
  constructor
  · rintro ⟨hp, hkey, -⟩
    exact ⟨entries[p], List.getElem?_eq_getElem hp, of_decide_eq_true hkey⟩
  · rintro ⟨e, he, hkey⟩
    obtain ⟨hp, rfl⟩ := List.getElem?_eq_some_iff.1 he
    refine ⟨hp, decide_eq_true hkey, fun j hj hfound => ?_⟩
    have hj' : j < (entries.map Entry.key).length := by
      simpa using Nat.lt_trans hj hp
    have hp' : p < (entries.map Entry.key).length := by simpa using hp
    -- An earlier hit would be a second place of the key.
    have heq : (entries.map Entry.key)[j] = (entries.map Entry.key)[p] := by
      simpa [hkey] using hfound
    exact absurd ((List.Nodup.getElem_inj_iff hn).1 heq) (Nat.ne_of_lt hj)

/-- Taking out what stands at the place of a key leaves the entries with other
keys. -/
theorem eraseIdx_eq_filter (hn : (entries.map Entry.key).Nodup)
    (he : entries[p]? = some e) :
    entries.eraseIdx p = (entries.filter fun x => x.key ≠ e.key) ∧
    (entries.filter fun x => x.key = e.key) = [e] := by
  induction entries generalizing p with
  | nil => cases he
  | cons x entries ih =>
      rw [List.map_cons, List.nodup_cons] at hn
      cases p with
      | zero =>
          obtain rfl := Option.some.inj he
          have hrest : ∀ y ∈ entries, y.key ≠ x.key :=
            fun y hy hkey => hn.1 (List.mem_map.2 ⟨y, hy, hkey⟩)
          refine ⟨?_, ?_⟩
          · rw [List.filter_cons_of_neg (by simp),
              List.filter_eq_self.2 fun y hy => decide_eq_true (hrest y hy)]
            rfl
          · rw [List.filter_cons_of_pos (by simp),
              List.filter_eq_nil_iff.2 fun y hy => by simpa using hrest y hy]
      | succ p =>
          have hother : x.key ≠ e.key := fun hkey =>
            hn.1 (List.mem_map.2 ⟨e, List.mem_of_getElem? (i := p) he, hkey.symm⟩)
          obtain ⟨herase, hsingle⟩ := ih hn.2 he
          refine ⟨?_, ?_⟩
          · rw [List.filter_cons_of_pos (by simpa using hother), ← herase]
            rfl
          · rw [List.filter_cons_of_neg (by simpa using hother), hsingle]

/-- Writing over what stands at the place of a key writes over the entries
with that key. -/
theorem modify_eq_map (hn : (entries.map Entry.key).Nodup)
    (he : entries[p]? = some e) (f : Entry → Entry) :
    entries.modify p f = entries.map fun x => if x.key = e.key then f x else x := by
  induction entries generalizing p with
  | nil => cases he
  | cons x entries ih =>
      rw [List.map_cons, List.nodup_cons] at hn
      cases p with
      | zero =>
          obtain rfl := Option.some.inj he
          have hrest : ∀ y ∈ entries, y.key ≠ x.key :=
            fun y hy hkey => hn.1 (List.mem_map.2 ⟨y, hy, hkey⟩)
          rw [List.map_cons, if_pos rfl, List.map_congr_left fun y hy =>
            if_neg (hrest y hy), List.map_id']
          rfl
      | succ p =>
          have hother : x.key ≠ e.key := fun hkey =>
            hn.1 (List.mem_map.2 ⟨e, List.mem_of_getElem? (i := p) he, hkey.symm⟩)
          rw [List.map_cons, if_neg hother, ← ih hn.2 he]
          rfl

theorem find?_eq_some_iff (hn : (entries.map Entry.key).Nodup) :
    entries.find? (fun e => e.key = key) = some e ↔ e ∈ entries ∧ e.key = key := by
  have hanswer : ∀ {x}, entries.find? (fun e => e.key = key) = some x →
      x ∈ entries ∧ x.key = key :=
    fun h => ⟨List.mem_of_find?_eq_some h, by simpa using List.find?_some h⟩
  refine ⟨hanswer, ?_⟩
  rintro ⟨he, rfl⟩
  obtain ⟨x, hx⟩ := Option.isSome_iff_exists.1
    (List.find?_isSome (p := fun x => x.key = e.key).2 ⟨e, he, by simp⟩)
  obtain ⟨hmem, hkey⟩ := hanswer hx
  rw [hx, List.inj_on_of_nodup_map hn hmem he hkey]

end Entry

/-! ## Operation by operation -/

namespace IndexedRegistry

namespace Mirrors

variable {x y : IndexedRegistry} {r s : Registry} {key : ComponentKey}

theorem mem_index (h : x.Mirrors r) : key ∈ x.index ↔ key ∈ r.keys := by
  rw [h.index, List.mem_toFinset]

theorem contains (h : x.Mirrors r) (key : ComponentKey) :
    x.contains key = r.contains key := by
  rw [Bool.eq_iff_iff, IndexedRegistry.contains, Registry.contains,
    decide_eq_true_eq, List.contains_iff_mem]
  exact h.mem_index

theorem position? (h : x.Mirrors r) (key : ComponentKey) :
    x.position? key = r.position? key := by
  rw [IndexedRegistry.position?, Registry.position?, h.entries]
  split
  · rfl
  · next hnot =>
      refine (List.findIdx?_eq_none_iff.2 fun e he => ?_).symm
      rw [decide_eq_false_iff_not]
      rintro rfl
      refine hnot (decide_eq_true (h.mem_index.2 ?_))
      exact List.mem_map_of_mem he

theorem get? (h : x.Mirrors r) (key : ComponentKey) : x.get? key = r.get? key := by
  rw [IndexedRegistry.get?, h.position? key, Registry.position?,
    Registry.get?, h.entries]
  induction r.entries with
  | nil => rfl
  | cons e entries ih =>
      rw [List.findIdx?_cons, List.find?_cons]
      split
      · next hkey => simp [hkey]
      · next hkey => simpa [hkey, Option.bind_map] using ih

theorem register (h : x.Mirrors r) (c : Component) (name : Option String) :
    (x.register c name).Mirrors (r.register c name) := by
  unfold IndexedRegistry.register Registry.register
  rw [h.contains]
  split
  · exact h
  · refine ⟨?_, ?_⟩
    · rw [h.entries]
    · -- The list has the new key last and the set has it first.
      ext key
      rw [h.index, Finset.mem_insert, List.mem_toFinset, List.mem_toFinset,
        Registry.keys, Registry.keys, List.map_append, List.mem_append,
        List.map_singleton, List.mem_singleton]
      exact or_comm

theorem extend (h : x.Mirrors r) (h' : y.Mirrors s) :
    (x.extend y).Mirrors (r.extend s) := by
  unfold IndexedRegistry.extend Registry.extend
  rw [h'.entries]
  induction s.entries generalizing x r with
  | nil => exact h
  | cons e entries ih => exact ih (h.register e.component e.name)

theorem exists_entry (h : x.Mirrors r) {p : Nat} (hp : x.position? key = some p) :
    ∃ e, x.entries[p]? = some e ∧ e.key = key ∧
      (x.entries.map Entry.key).Nodup := by
  have hn : (x.entries.map Entry.key).Nodup := h.entries ▸ r.distinct
  unfold IndexedRegistry.position? at hp
  split at hp
  · obtain ⟨e, he, hkey⟩ := (Entry.findIdx?_eq_some_iff hn).1 hp
    exact ⟨e, he, hkey, hn⟩
  · cases hp

theorem not_mem_of_position? (h : x.Mirrors r) (hp : x.position? key = none)
    {e : Entry} (he : e ∈ r.entries) :
    e.key ≠ key := by
  rw [h.position?, Registry.position?, List.findIdx?_eq_none_iff] at hp
  exact of_decide_eq_false (hp e he)

theorem relocateToEnd (h : x.Mirrors r) (key : ComponentKey) :
    (x.relocateToEnd key).Mirrors (r.relocateToEnd key) := by
  have hkeys : (r.relocateToEnd key).keys.toFinset = r.keys.toFinset := by
    ext k
    simp only [Registry.keys, Registry.relocateToEnd, List.mem_toFinset,
      List.mem_map, List.mem_append, List.mem_filter, decide_eq_true_eq]
    constructor
    · rintro ⟨e, he | he, hk⟩
      · exact ⟨e, he.1, hk⟩
      · exact ⟨e, he.1, hk⟩
    · rintro ⟨e, he, hk⟩
      by_cases hkey : e.key = key
      · exact ⟨e, .inr ⟨he, hkey⟩, hk⟩
      · exact ⟨e, .inl ⟨he, hkey⟩, hk⟩
  unfold IndexedRegistry.relocateToEnd
  split
  · next p hp =>
      obtain ⟨e, he, rfl, hn⟩ := h.exists_entry hp
      obtain ⟨herase, hsingle⟩ := Entry.eraseIdx_eq_filter hn he
      refine ⟨?_, h.index.trans hkeys.symm⟩
      dsimp only
      rw [herase, he, Option.toList_some, ← hsingle, h.entries]
      rfl
  · next hp =>
      refine ⟨?_, h.index.trans hkeys.symm⟩
      have hnot : ∀ e ∈ r.entries, e.key ≠ key := fun e => h.not_mem_of_position? hp
      dsimp only [Registry.relocateToEnd]
      rw [h.entries, List.filter_eq_self.2 fun e he => decide_eq_true (hnot e he),
        List.filter_eq_nil_iff.2 fun e he => by simpa using hnot e he,
        List.append_nil]

theorem bindOutput (h : x.Mirrors r) (key : ComponentKey) (target : Target) :
    (x.bindOutput key target).Mirrors (r.bindOutput key target) := by
  have hkeys : (r.bindOutput key target).keys = r.keys := by
    rw [Registry.keys_eq_map, Registry.keys_eq_map, Registry.components_bindOutput,
      List.map_map]
    refine List.map_congr_left fun c _ => ?_
    dsimp only [Function.comp]
    split <;> simp
  unfold IndexedRegistry.bindOutput
  split
  · next p hp =>
      obtain ⟨e, he, rfl, hn⟩ := h.exists_entry hp
      refine ⟨?_, by rw [hkeys]; exact h.index⟩
      dsimp only
      rw [Entry.modify_eq_map hn he, h.entries]
      rfl
  · next hp =>
      refine ⟨?_, by rw [hkeys]; exact h.index⟩
      dsimp only [Registry.bindOutput]
      rw [h.entries, List.map_congr_left fun e he =>
        if_neg (h.not_mem_of_position? hp he), List.map_id']

theorem coherent (h : x.Mirrors r) : x.Coherent where
  index key := by
    rw [h.mem_index, Registry.keys, List.mem_map, h.entries]
  distinct := h.entries ▸ r.distinct
  contains key := by
    rw [h.contains, Registry.contains, List.contains_iff_mem, Registry.keys,
      List.mem_map, h.entries]
  position key p := by
    rw [h.position?, Registry.position?, Entry.findIdx?_eq_some_iff r.distinct,
      h.entries]
  get key c := by
    rw [h.get?, Registry.get?, h.entries, Option.map_eq_some_iff]
    constructor
    · rintro ⟨e, he, rfl⟩
      obtain ⟨hmem, hkey⟩ := (Entry.find?_eq_some_iff r.distinct).1 he
      exact ⟨hkey, e, hmem, rfl⟩
    · rintro ⟨rfl, e, he, rfl⟩
      exact ⟨e, (Entry.find?_eq_some_iff r.distinct).2 ⟨he, rfl⟩, rfl⟩

end Mirrors

end IndexedRegistry

/-! ## Flattening -/

/-- The entry as it is registered: without a name it takes the id of its
component. -/
def Entry.settled (e : Entry) : Entry :=
  { e with name := e.name <|> e.component.id? }

theorem Entry.settled_settled (e : Entry) : e.settled.settled = e.settled := by
  simp [settled, Option.or_assoc]

namespace Registry

variable {r s : Registry}

theorem ext_entries (h : r.entries = s.entries) : r = s := by
  cases r
  cases s
  cases h
  rfl

theorem contains_register (r : Registry) (c : Component) (name : Option String)
    (key : ComponentKey) :
    (r.register c name).contains key =
      (r.contains key || decide (key = c.key)) := by
  rw [Bool.eq_iff_iff, Bool.or_eq_true, decide_eq_true_eq, contains_iff,
    components_register]
  split
  · next hc =>
      exact ⟨fun h => .inl (contains_iff.2 h),
        fun h => contains_iff.1 (h.elim id fun heq => heq ▸ hc)⟩
  · simp [contains_iff]

/-- Adding a registry appends the entries whose keys are new. -/
theorem entries_extend (r s : Registry) :
    (r.extend s).entries = r.entries ++
      (s.entries.filter fun e => !r.contains e.key).map Entry.settled := by
  have hstep : ∀ (entries : List Entry) (r : Registry),
      (entries.map Entry.key).Nodup →
      (entries.foldl (fun acc e => acc.register e.component e.name) r).entries =
      r.entries ++
        (entries.filter fun e => !r.contains e.key).map Entry.settled := by
    intro entries
    induction entries with
    | nil => exact fun r _ => (List.append_nil _).symm
    | cons e entries ih =>
        intro r hn
        rw [List.map_cons, List.nodup_cons] at hn
        -- The entries that follow have other keys, so they are as new behind
        -- this one as before it.
        have hrest :
            (entries.filter fun x =>
              !(r.register e.component e.name).contains x.key) =
            entries.filter fun x => !r.contains x.key := by
          refine List.filter_congr fun x hx => ?_
          have hne : x.key ≠ e.component.key :=
            fun hkey => hn.1 (List.mem_map.2 ⟨x, hx, hkey⟩)
          rw [contains_register, decide_eq_false hne, Bool.or_false]
        rw [List.foldl_cons, ih _ hn.2, hrest, List.filter_cons]
        by_cases hc : r.contains e.component.key = true
        · rw [register, dif_pos hc, if_neg (by simpa [Entry.key] using hc)]
        · rw [register, dif_neg hc, if_pos (by simpa [Entry.key] using hc),
            List.map_cons, List.append_assoc]
          rfl
  exact hstep s.entries r s.distinct

theorem contains_extend (r s : Registry) (key : ComponentKey) :
    (r.extend s).contains key = (r.contains key || s.contains key) := by
  rw [Bool.eq_iff_iff, contains_iff, components_extend, Bool.or_eq_true,
    contains_iff, contains_iff, List.map_append, List.mem_append]
  refine or_congr_right' fun hnot => ?_
  rw [List.mem_map, List.mem_map]
  refine exists_congr fun c => and_congr_left fun hkey => ?_
  rw [List.mem_filter, and_iff_left_iff_imp]
  intro _
  rw [hkey, Bool.not_eq_true', ← Bool.not_eq_true, contains_iff]
  exact hnot

/-- Flattening comes to the same, however it is nested. -/
theorem extend_assoc (r s t : Registry) :
    (r.extend s).extend t = r.extend (s.extend t) := by
  refine ext_entries ?_
  rw [entries_extend, entries_extend r s, entries_extend r, entries_extend s t,
    List.filter_append, List.map_append, List.append_assoc, List.filter_map,
    List.map_map, List.filter_filter]
  congr 2
  have hsettled : Entry.settled ∘ Entry.settled = Entry.settled :=
    funext Entry.settled_settled
  rw [hsettled]
  refine congrArg _ (List.filter_congr fun e _ => ?_)
  rw [contains_extend, Bool.not_or]
  rfl

theorem extend_empty (r : Registry) : r.extend .empty = r := rfl

theorem extend_extend_self (r s : Registry) :
    (r.extend s).extend s = r.extend s := by
  refine ext_entries ?_
  rw [entries_extend, List.filter_eq_nil_iff.2, List.map_nil, List.append_nil]
  intro e he
  have hc : s.contains e.key = true := by
    rw [contains, List.contains_iff_mem]
    exact List.mem_map_of_mem he
  simp [contains_extend, hc]

/-- Entries that have the names they would be given are taken over as they
are. -/
theorem empty_extend (h : ∀ e ∈ r.entries, e.settled = e) :
    Registry.empty.extend r = r := by
  refine ext_entries ?_
  have hall : (r.entries.filter fun e => !empty.contains e.key) = r.entries :=
    List.filter_eq_self.2 fun e _ => rfl
  rw [entries_extend, hall, List.map_congr_left h, List.map_id']
  rfl

end Registry

/-! ## Registries that came about by operations -/

/-- How a registry came about: from nothing, by operations on it and by taking
in others. -/
inductive Recipe where
  | empty
  | register (before : Recipe) (component : Component) (name : Option String)
  | extend (before other : Recipe)
  | relocateToEnd (before : Recipe) (key : ComponentKey)
  | bindOutput (before : Recipe) (key : ComponentKey) (target : Target)

namespace Recipe

/-- The registry that a recipe makes. -/
def registry : Recipe → Registry
  | .empty => .empty
  | .register before component name => before.registry.register component name
  | .extend before other => before.registry.extend other.registry
  | .relocateToEnd before key => before.registry.relocateToEnd key
  | .bindOutput before key target => before.registry.bindOutput key target

/-- The registry with an index that a recipe makes. -/
def indexed : Recipe → IndexedRegistry
  | .empty => {}
  | .register before component name => before.indexed.register component name
  | .extend before other => before.indexed.extend other.indexed
  | .relocateToEnd before key => before.indexed.relocateToEnd key
  | .bindOutput before key target => before.indexed.bindOutput key target

theorem mirrors (t : Recipe) : t.indexed.Mirrors t.registry := by
  induction t with
  | empty => exact ⟨rfl, rfl⟩
  | register _ component name ih => exact ih.register component name
  | extend _ _ ih ih' => exact ih.extend ih'
  | relocateToEnd _ key ih => exact ih.relocateToEnd key
  | bindOutput _ key target ih => exact ih.bindOutput key target

/-- What came about by operations has the names that it would be given. -/
theorem settled (t : Recipe) : ∀ e ∈ t.registry.entries, e.settled = e := by
  induction t with
  | empty => exact fun e he => by cases he
  | register t component name ih =>
      intro e he
      rw [registry, Registry.register] at he
      split at he
      · exact ih e he
      · rcases List.mem_append.1 he with he | he
        · exact ih e he
        · rw [List.mem_singleton.1 he]
          exact Entry.settled_settled ⟨component, name⟩
  | extend t u ih _ =>
      intro e he
      rw [registry, Registry.entries_extend, List.mem_append] at he
      rcases he with he | he
      · exact ih e he
      · obtain ⟨e, -, rfl⟩ := List.mem_map.1 he
        exact e.settled_settled
  | relocateToEnd t key ih =>
      intro e he
      rcases List.mem_append.1 he with he | he
      · exact ih e (List.mem_filter.1 he).1
      · exact ih e (List.mem_filter.1 he).1
  | bindOutput t key target ih =>
      intro e he
      obtain ⟨e, hmem, rfl⟩ := List.mem_map.1 he
      have hsettled := ih e hmem
      split
      · have hid : (e.component.withOutput target).id? = e.component.id? := by
          cases e.component <;> rfl
        rw [Entry.settled, hid]
        exact congrArg
          (fun x : Entry => { x with component := e.component.withOutput target })
          hsettled
      · exact hsettled

/-- Both recipes come to the same registry, with the index and without. -/
structure Same (t u : Recipe) : Prop where
  registry : t.registry = u.registry
  indexed : t.indexed = u.indexed

theorem same_of_registry {t u : Recipe} (h : t.registry = u.registry) :
    t.Same u := by
  refine ⟨h, ?_⟩
  have ht := t.mirrors
  have hu := u.mirrors
  rw [h] at ht
  cases hx : t.indexed
  cases hy : u.indexed
  rw [hx] at ht
  rw [hy] at hu
  obtain ⟨hentries, hindex⟩ := ht
  obtain ⟨hentries', hindex'⟩ := hu
  cases hentries.trans hentries'.symm
  cases hindex.trans hindex'.symm
  rfl

end Recipe

/-- A registry is an ordered set, and flattening registries into one another
is a monoid. For all registries that came about by operations, the set and the
list agree with each other, with every look-up and with the registry whose
keys are distinct by its type. Registering and taking in append entries,
without a change to those that are there; relocating moves one entry and no
other. Flattening is associative with the empty registry as its unit, and a
registry that was taken in has nothing to add. -/
theorem ordered_set (t u v : Recipe) :
    (t.indexed.Coherent ∧ t.indexed.Mirrors t.registry ∧
      ∀ key, t.indexed.contains key = t.registry.contains key ∧
        t.indexed.position? key = t.registry.position? key ∧
        t.indexed.get? key = t.registry.get? key) ∧
    ((∀ component name,
        t.indexed.entries <+: (t.indexed.register component name).entries) ∧
      t.indexed.entries <+: (t.indexed.extend u.indexed).entries ∧
      ∀ key, (t.indexed.relocateToEnd key).entries =
        (t.indexed.entries.filter fun e => e.key ≠ key) ++
          t.indexed.entries.filter fun e => e.key = key) ∧
    (((t.extend u).extend v).Same (t.extend (u.extend v)) ∧
      (Recipe.empty.extend t).Same t ∧ (t.extend .empty).Same t ∧
      ((t.extend u).extend u).Same (t.extend u)) := by
  have ht := t.mirrors
  refine ⟨⟨ht.coherent, ht,
      fun key => ⟨ht.contains key, ht.position? key, ht.get? key⟩⟩, ⟨?_, ?_, ?_⟩,
    ?_, ?_, ?_, ?_⟩
  · intro component name
    rw [IndexedRegistry.register]
    split
    · exact List.prefix_rfl
    · exact List.prefix_append _ _
  · rw [(ht.extend u.mirrors).entries, ht.entries, Registry.entries_extend]
    exact List.prefix_append _ _
  · intro key
    rw [(ht.relocateToEnd key).entries, ht.entries]
    rfl
  · exact Recipe.same_of_registry (Registry.extend_assoc _ _ _)
  · exact Recipe.same_of_registry (Registry.empty_extend t.settled)
  · exact Recipe.same_of_registry (Registry.extend_empty _)
  · exact Recipe.same_of_registry (Registry.extend_extend_self _ _)

end FlowAssembly
