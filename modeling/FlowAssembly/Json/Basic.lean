import FlowAssembly.Json.Number

/-!
# JSON values

`Json` is what a JSON text holds, with the fields of an object in the order of
the text. A text may write a field twice; `canonical` is the value such a text
stands for: every object sorted by field name, and of two fields with one name
the later one. Payloads and headers are always canonical.
-/

namespace FlowAssembly

/-- A JSON value, its objects as lists of fields. -/
inductive Json where
  | null
  | bool (value : Bool)
  | number (value : Number)
  | string (value : String)
  | array (items : List Json)
  | object (fields : List (String × Json))
deriving Repr, Inhabited

/-! ## Looking up by name -/

section

variable {name : String} {value : α} {pairs : List (String × α)}

theorem mem_of_lookup (h : pairs.lookup name = some value) :
    (name, value) ∈ pairs := by
  obtain ⟨before, after, rfl, -⟩ := List.lookup_eq_some_iff.1 h
  exact List.mem_append_right before List.mem_cons_self

/-- Where no name stands twice, a name finds whatever is listed with it. -/
theorem lookup_eq_some_iff_mem (h : (pairs.map Prod.fst).Nodup) :
    pairs.lookup name = some value ↔ (name, value) ∈ pairs := by
  refine ⟨mem_of_lookup, fun hmem => ?_⟩
  obtain ⟨before, after, rfl⟩ := List.append_of_mem hmem
  refine List.lookup_eq_some_iff.2
    ⟨before, after, rfl, fun other hother => bne_iff_ne.2 ?_⟩
  -- A name found before would stand twice.
  intro hname
  rw [List.map_append, List.nodup_append] at h
  exact h.2.2 other.1 (List.mem_map_of_mem hother) name List.mem_cons_self
    hname.symm

end

/-! ## Fields -/

/-- Fields sorted by name, with the names distinct. -/
abbrev Fields := List (String × Json)

namespace Fields

/-- The value of a field. -/
abbrev get? (name : String) (fields : Fields) : Option Json :=
  fields.lookup name

/-- Sets a field, keeping the names in ascending order; an earlier value under
the name is replaced. -/
def insert (name : String) (value : Json) : Fields → Fields
  | [] => [(name, value)]
  | (key, old) :: rest =>
      if name < key then (name, value) :: (key, old) :: rest
      else if name = key then (name, value) :: rest
      else (key, old) :: insert name value rest

theorem lookup_insert_self (name : String) (value : Json) (fields : Fields) :
    (insert name value fields).lookup name = some value := by
  induction fields with
  | nil => exact List.lookup_cons_self
  | cons field rest ih =>
      obtain ⟨key, old⟩ := field
      unfold insert
      split
      · exact List.lookup_cons_self
      · split
        · exact List.lookup_cons_self
        · next h => rw [List.lookup_cons, beq_false_of_ne h, ih]

theorem lookup_insert_of_ne {name other : String} (h : other ≠ name) (value : Json)
    (fields : Fields) :
    (insert name value fields).lookup other = fields.lookup other := by
  induction fields with
  | nil => rw [insert, List.lookup_cons, beq_false_of_ne h]
  | cons field rest ih =>
      obtain ⟨key, old⟩ := field
      unfold insert
      split
      · rw [List.lookup_cons, beq_false_of_ne h]
      · split
        · next hkey =>
            rw [List.lookup_cons, List.lookup_cons, ← hkey, beq_false_of_ne h]
        · rw [List.lookup_cons, List.lookup_cons, ih]

end Fields

namespace Json

mutual

/-- The value with every object sorted by name, the later of two fields with
one name kept. -/
def canonical : Json → Json
  | .array items => .array (canonicalItems items)
  | .object fields => .object (canonicalFields fields)
  | other => other

def canonicalItems : List Json → List Json
  | [] => []
  | item :: rest => item.canonical :: canonicalItems rest

/-- The canonical fields of an object; a field that a later one repeats is
dropped. -/
def canonicalFields : List (String × Json) → Fields
  | [] => []
  | (name, value) :: rest =>
      let tail := canonicalFields rest
      if (tail.lookup name).isSome then tail
      else Fields.insert name value.canonical tail

end

/-- The value as a text. -/
def asString? : Json → Option String
  | .string value => some value
  | _ => none

/-- The value as a flag. -/
def asBool? : Json → Option Bool
  | .bool value => some value
  | _ => none

/-- A text, or nothing for null. -/
def asOptionalString? : Json → Option (Option String)
  | .null => some none
  | .string value => some (some value)
  | _ => none

/-- The items of an array. -/
def asArray? : Json → Option (List Json)
  | .array items => some items
  | _ => none

/-- What an option holds, or null. -/
def ofOption (toJson : α → Json) : Option α → Json
  | some value => toJson value
  | none => .null

/-- A whole number as a value. -/
def ofNat (n : Nat) : Json :=
  .number (.integer n)

end Json

end FlowAssembly
