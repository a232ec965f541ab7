import FlowAssembly.Json.Literal
import FlowAssembly.Json.Record

/-!
# Reading JSON

`Json.read?` reads a whole text as one value: blanks are the space, the tab,
the line feed and the carriage return, and nothing but blanks may follow the
value. A text in quotes may hold no control character, and an escape by number
that is half of a surrogate pair needs the other half. Values nest at most 127
deep. Fields keep the order of the text, repetitions included, so that a
record's reader can refuse a field that is given twice.

A text may be read for a record (`readAs?`). The fields that the record passes
over are then only skimmed: they have to be JSON, but may nest deeper, hold
halves of surrogate pairs, and have numbers of any size. Null stands for each
of them.

Each reader takes the characters that are left and answers what it read with
the rest, or nothing. What is refused in a value but not in a field passed
over depends on `strict`.
-/

namespace FlowAssembly.Json

/-- Whether a character may stand between the tokens of a JSON text. -/
def isGap (c : Char) : Bool :=
  c = ' ' || c = '\n' || c = '\r' || c = '\t'

/-- The characters from the next token on. -/
def skipGap (text : List Char) : List Char :=
  text.dropWhile isGap

/-- The value of a digit in base sixteen, of either case. -/
def hexDigit? (c : Char) : Option Nat :=
  if '0' ≤ c ∧ c ≤ '9' then some (c.toNat - '0'.toNat)
  else if 'a' ≤ c ∧ c ≤ 'f' then some (c.toNat - 'a'.toNat + 10)
  else if 'A' ≤ c ∧ c ≤ 'F' then some (c.toNat - 'A'.toNat + 10)
  else none

/-- Four digits in base sixteen. -/
def readUnit : List Char → Option (Nat × List Char)
  | a :: b :: c :: d :: rest => do
      let a ← hexDigit? a
      let b ← hexDigit? b
      let c ← hexDigit? c
      let d ← hexDigit? d
      some (((a * 16 + b) * 16 + c) * 16 + d, rest)
  | _ => none

/-- The character of an escape by number, with the second half of a surrogate
pair where the first needs it. -/
def readNumbered (strict : Bool) (text : List Char) :
    Option (Char × List Char) := do
  let (unit, rest) ← readUnit text
  if unit < 0xD800 ∨ 0xE000 ≤ unit then some (Char.ofNat unit, rest)
  else if !strict then some ('\uFFFD', rest)
  else if 0xDC00 ≤ unit then none
  else
    match rest with
    | '\\' :: 'u' :: rest =>
        let (low, rest) ← readUnit rest
        if 0xDC00 ≤ low ∧ low < 0xE000 then
          some (Char.ofNat (0x10000 + (unit - 0xD800) * 0x400 + (low - 0xDC00)),
            rest)
        else none
    | _ => none

/-- The character of an escape by letter. -/
def lettered? : Char → Option Char
  | '"' => some '"'
  | '\\' => some '\\'
  | '/' => some '/'
  | 'b' => some (Char.ofNat 8)
  | 'f' => some (Char.ofNat 12)
  | 'n' => some '\n'
  | 'r' => some '\r'
  | 't' => some '\t'
  | _ => none

/-- One character of a text in quotes, or its closing quote. -/
def readQuotedChar (strict : Bool) : List Char → Option (Option Char × List Char)
  | '"' :: rest => some (none, rest)
  | '\\' :: 'u' :: rest =>
      (readNumbered strict rest).map fun (c, rest) => (some c, rest)
  | '\\' :: c :: rest => (lettered? c).map fun c => (some c, rest)
  | c :: rest => if c = '\\' ∨ c.toNat < 32 then none else some (some c, rest)
  | [] => none

theorem readUnit_length {text rest : List Char} {unit : Nat}
    (h : readUnit text = some (unit, rest)) :
    rest.length < text.length := by
  unfold readUnit at h
  split at h
  · simp only [bind, Option.bind_eq_some_iff, Option.some.injEq, Prod.mk.injEq] at h
    obtain ⟨_, -, _, -, _, -, _, -, -, rfl⟩ := h
    simp only [List.length_cons]
    omega
  · simp at h

theorem readNumbered_length {strict : Bool} {text rest : List Char} {c : Char}
    (h : readNumbered strict text = some (c, rest)) :
    rest.length < text.length := by
  unfold readNumbered at h
  simp only [bind, Option.bind_eq_some_iff] at h
  obtain ⟨⟨unit, after⟩, hunit, h⟩ := h
  have hafter := readUnit_length hunit
  simp only at h
  repeat' split at h
  all_goals first
    | (simp only [Option.some.injEq, Prod.mk.injEq] at h
       obtain ⟨-, rfl⟩ := h
       exact hafter)
    | (simp only [Option.bind_eq_some_iff] at h
       obtain ⟨⟨low, final⟩, hlow, h⟩ := h
       have hfinal := readUnit_length hlow
       simp only at h
       split at h
       · simp only [Option.some.injEq, Prod.mk.injEq] at h
         obtain ⟨-, rfl⟩ := h
         simp only [List.length_cons] at hafter
         omega
       · simp at h)
    | simp at h

/-- Each step takes at least one character. -/
theorem readQuotedChar_length {strict : Bool} {text rest : List Char}
    {c : Option Char} (h : readQuotedChar strict text = some (c, rest)) :
    rest.length < text.length := by
  unfold readQuotedChar at h
  split at h
  · simp only [Option.some.injEq, Prod.mk.injEq] at h
    obtain ⟨-, rfl⟩ := h
    simp
  · simp only [Option.map_eq_some_iff, Prod.mk.injEq] at h
    obtain ⟨⟨c', final⟩, hfinal, -, rfl⟩ := h
    have := readNumbered_length hfinal
    simp only [List.length_cons]
    omega
  · simp only [Option.map_eq_some_iff, Prod.mk.injEq] at h
    obtain ⟨_, -, -, rfl⟩ := h
    simp only [List.length_cons]
    omega
  · split at h
    · simp at h
    · simp only [Option.some.injEq, Prod.mk.injEq] at h
      obtain ⟨-, rfl⟩ := h
      simp
  · simp at h

/-- The characters up to the closing quote, after those read so far in reverse
order. -/
def readQuoted (strict : Bool) (text : List Char) (seen : List Char) :
    Option (String × List Char) :=
  match _h : readQuotedChar strict text with
  | none => none
  | some (none, rest) => some (String.ofList seen.reverse, rest)
  | some (some c, rest) => readQuoted strict rest (c :: seen)
termination_by text.length
decreasing_by exact readQuotedChar_length _h

/-- What a reader answers: a value, and the characters behind it. -/
abbrev Reading := Option (Json × List Char)

/-- A number. Null stands for one that is passed over. -/
def readNumber (strict : Bool) (text : List Char) : Reading := do
  let (literal, rest) ← Literal.read text
  if strict then
    let value ← literal.value?
    some (.number value, rest)
  else some (.null, rest)

/-- A value that is neither an array nor an object. -/
def readScalar (strict : Bool) : List Char → Reading
  | 'n' :: 'u' :: 'l' :: 'l' :: rest => some (.null, rest)
  | 't' :: 'r' :: 'u' :: 'e' :: rest => some (.bool true, rest)
  | 'f' :: 'a' :: 'l' :: 's' :: 'e' :: rest => some (.bool false, rest)
  | '"' :: rest =>
      (readQuoted strict rest []).map fun (text, rest) => (.string text, rest)
  | text => readNumber strict text

/-- The items of an array after its opening bracket or a comma, each read by
`item` for its position. -/
def readItems (item : Nat → List Char → Reading) (text : List Char)
    (seen : List Json) : Reading :=
  match item seen.length (skipGap text) with
  | none => none
  | some (value, rest) =>
      match skipGap rest with
      | ']' :: rest => some (.array (value :: seen).reverse, rest)
      | ',' :: rest =>
          if rest.length < text.length then readItems item rest (value :: seen)
          else none
      | _ => none
termination_by text.length

/-- A field: a name in quotes, a colon and a value read by `field` for the
name. -/
def readField (strict : Bool) (field : String → List Char → Reading)
    (text : List Char) :
    Option ((String × Json) × List Char) :=
  match skipGap text with
  | '"' :: rest => do
      let (name, rest) ← readQuoted strict rest []
      match skipGap rest with
      | ':' :: rest =>
          let (value, rest) ← field name (skipGap rest)
          some ((name, value), rest)
      | _ => none
  | _ => none

/-- The fields of an object after its opening brace or a comma. -/
def readFields (strict : Bool) (field : String → List Char → Reading)
    (text : List Char) (seen : List (String × Json)) : Reading :=
  match readField strict field text with
  | none => none
  | some (here, rest) =>
      match skipGap rest with
      | '}' :: rest => some (.object (here :: seen).reverse, rest)
      | ',' :: rest =>
          if rest.length < text.length then
            readFields strict field rest (here :: seen)
          else none
      | _ => none
termination_by text.length

/-- A value from its first character on, with readers for the items of an
array and the fields of an object. -/
def readNested (strict : Bool) (item : Nat → List Char → Reading)
    (field : String → List Char → Reading) :
    List Char → Reading
  | '[' :: rest =>
      match skipGap rest with
      | ']' :: rest => some (.array [], rest)
      | _ => readItems item rest []
  | '{' :: rest =>
      match skipGap rest with
      | '}' :: rest => some (.object [], rest)
      | _ => readFields strict field rest []
  | text => readScalar strict text

/-- A value that is passed over and nests at most `depth` arrays and objects. -/
def skim : Nat → List Char → Reading
  | 0, text => readScalar false text
  | depth + 1, text =>
      readNested false (fun _ => skim depth) (fun _ => skim depth) text

/-- A value that is passed over; no value nests deeper than its text is long. -/
def pass (text : List Char) : Reading :=
  (skim text.length text).map fun (_, rest) => (.null, rest)

/-- A value of a shape that nests at most `depth` arrays and objects. -/
def readValue : Nat → Shape → List Char → Reading
  | 0, _, text => readScalar true text
  | depth + 1, shape, text =>
      readNested true (fun position => readValue depth (shape.item position))
        (fun name =>
          match shape.field? name with
          | some inner => readValue depth inner
          | none => pass)
        text

/-- How deep the values of a text may nest. -/
def depthLimit : Nat := 127

/-- The value of a whole text that is read for a shape. -/
def readAs? (shape : Shape) (text : List Char) : Option Json :=
  match readValue depthLimit shape (skipGap text) with
  | some (value, rest) => if skipGap rest = [] then some value else none
  | none => none

/-- The value of a whole text, as it is written. -/
def read? (text : List Char) : Option Json :=
  readAs? .any text

end FlowAssembly.Json
