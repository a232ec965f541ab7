import FlowAssembly.Json.Number
import FlowAssembly.Text.Numeral

/-!
# Number literals

How a JSON text writes a number, and which number that is. A literal without
fraction and exponent is a whole number if it fits in 64 bits. Any other is a
double: its first digits, as many as fit in 64 bits, times a power of ten. The
digits that are left over count as zeros. A literal beyond the largest double
has no value.
-/

namespace FlowAssembly.Json

/-- A number as it is written. -/
structure Literal where
  negative : Bool
  whole : List Char
  /-- The digits after the point, if there is a point. -/
  fraction : Option (List Char)
  exponent : Option Int
deriving DecidableEq, Repr

namespace Literal

/-- A row of digits, and what follows it. -/
def readDigits (text : List Char) : List Char × List Char :=
  (text.takeWhile Text.isDecimalDigit, text.dropWhile Text.isDecimalDigit)

/-- The part of a number after the point, if there is a point; digits must
follow it. -/
def readFraction : List Char → Option (Option (List Char) × List Char)
  | '.' :: rest =>
      match readDigits rest with
      | ([], _) => none
      | (digits, rest) => some (some digits, rest)
  | text => some (none, text)

/-- The exponent of a number, if there is one; digits must follow its sign. -/
def readExponent : List Char → Option (Option Int × List Char)
  | c :: rest =>
      if c = 'e' ∨ c = 'E' then
        let signed := match rest with
          | '-' :: rest => (true, rest)
          | '+' :: rest => (false, rest)
          | _ => (false, rest)
        match readDigits signed.2 with
        | ([], _) => none
        | (digits, rest) =>
            let size : Int := Text.digitsValue digits
            some (some (if signed.1 then -size else size), rest)
      else some (none, c :: rest)
  | [] => some (none, [])

/-- Reads a literal: no zero stands before another digit of the whole part. -/
def read (text : List Char) : Option (Literal × List Char) := do
  let (negative, text) := match text with
    | '-' :: rest => (true, rest)
    | _ => (false, text)
  let (whole, rest) := readDigits text
  if whole = [] ∨ (whole.head? = some '0' ∧ whole.length ≠ 1) then none
  else
    let (fraction, rest) ← readFraction rest
    let (exponent, rest) ← readExponent rest
    some ({ negative, whole, fraction, exponent }, rest)

/-- Appends digits to a number as long as it fits in 64 bits; answers with
those left over. -/
def appendFitting (n : Nat) : List Char → Nat × List Char
  | [] => (n, [])
  | c :: rest =>
      let longer := Text.digitsValueFrom n [c]
      if longer ≤ Text.limit64 then appendFitting longer rest else (n, c :: rest)

/-- The magnitude of a literal as a double. -/
def magnitude? (l : Literal) : Option Magnitude :=
  let places := l.fraction.getD []
  let (n, wholeLeft) := appendFitting 0 l.whole
  let (n, placesLeft) := appendFitting n places
  let used : Int := places.length - placesLeft.length
  Magnitude.scaled n (l.exponent.getD 0 + wholeLeft.length - used)

/-- The number of a literal, if it is in range; minus zero is a double. -/
def value? (l : Literal) : Option Number :=
  let size : Int := Text.digitsValue l.whole
  let value := if l.negative then -size else size
  if l.fraction.isNone ∧ l.exponent.isNone ∧ Number.fits value ∧
    ¬(l.negative ∧ value = 0) then
      some (.integer value)
  else l.magnitude?.map fun magnitude =>
    .double { negative := l.negative, magnitude }

end Literal

end FlowAssembly.Json
