import FlowAssembly.Json.Basic

/-!
# Records in JSON

A record with named fields is read from an object or, by position, from an
array. In an object a field of the record may stand once at most and other
fields are passed over. An array gives the fields in their declared order; it
may stop early, but may not go on past the last field. A choice without data
is read from its name, or from an object whose only field has that name and is
null.

The fields that a record passes over never become values, so a text that is
read for a record is not checked as strictly there. `Shape` tells a reader of
texts where that is.
-/

namespace FlowAssembly.Json

/-- What a text is read for: any value, a list of one shape, or a record of
named fields. -/
inductive Shape where
  | any
  | list (item : Shape)
  | record (fields : List (String × Shape))

namespace Shape

/-- The shape of an array's item, by its position. -/
def item : Shape → Nat → Shape
  | .any, _ => .any
  | .list item, _ => item
  | .record fields, position => (fields[position]?.map Prod.snd).getD .any

/-- The shape of an object's field; none for a field that is passed over. -/
def field? : Shape → String → Option Shape
  | .record fields, name => fields.lookup name
  | _, _ => some .any

end Shape

/-- The fields that a value gives for a record, and whether it gave them by
position. -/
structure Record where
  given : List (String × Json)
  byPosition : Bool

/-- Reads a value as a record with the given field names. -/
def record? (names : List String) : Json → Option Record
  | .object fields =>
      let known := fields.filter fun field => names.contains field.1
      if (known.map Prod.fst).Nodup then some ⟨known, false⟩ else none
  | .array items =>
      if items.length ≤ names.length then some ⟨names.zip items, true⟩ else none
  | _ => none

/-- The value that was given for a field. -/
def Record.get? (r : Record) (name : String) : Option Json :=
  r.given.lookup name

/-- A field that may be null, and that an object, but not an array, may leave
out. -/
def Record.nullable? (r : Record) (name : String) : Option Json :=
  match r.get? name with
  | some value => some value
  | none => if r.byPosition then none else some .null

/-- A field with a value to take when it is not given. -/
def Record.getD (r : Record) (name : String) (fallback : α)
    (read : Json → Option α) : Option α :=
  match r.get? name with
  | some value => read value
  | none => some fallback

/-- Reads one of several choices by its name. -/
def choice? (choices : List (String × α)) : Json → Option α
  | .string name => choices.lookup name
  | .object [(name, .null)] => choices.lookup name
  | _ => none

end FlowAssembly.Json
