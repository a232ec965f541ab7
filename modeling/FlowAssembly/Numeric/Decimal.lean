/-!
# Decimals

A decimal fraction, and how it is written: always with a point or an exponent,
so that it never looks like a whole number.
-/

namespace FlowAssembly

/-- A decimal fraction: `digits * 10 ^ exponent`, below zero when `negative`. -/
structure Decimal where
  negative : Bool
  digits : Nat
  exponent : Int
deriving DecidableEq, Repr

namespace Decimal

/-- Moves trailing zeros of `digits` into the exponent; `fuel` bounds how
many. -/
def strip : Nat → Nat → Int → Nat × Int
  | 0, digits, exponent => (digits, exponent)
  | fuel + 1, digits, exponent =>
      if digits % 10 = 0 then strip fuel (digits / 10) (exponent + 1)
      else (digits, exponent)

/-- The decimal with the given value whose last digit is not zero; zero has
the exponent zero. -/
def normal (negative : Bool) (digits : Nat) (exponent : Int) : Decimal :=
  if digits = 0 then ⟨negative, 0, 0⟩
  else
    let stripped := strip (Nat.toDigits 10 digits).length digits exponent
    ⟨negative, stripped.1, stripped.2⟩

/-- How many places left of the point the first digit stands; 1 for a number
from 1 up to 10. -/
def magnitude (d : Decimal) : Int :=
  (Nat.toDigits 10 d.digits).length + d.exponent

/-- The digits without sign: positional with at least one place on each side
of the point while the magnitude is from -4 to 16, otherwise one digit before
the point and an exponent. -/
def unsignedText (d : Decimal) : List Char :=
  let digits := Nat.toDigits 10 d.digits
  let m := d.magnitude
  if d.digits = 0 then ['0', '.', '0']
  else if 0 ≤ d.exponent ∧ m ≤ 16 then
    digits ++ List.replicate d.exponent.toNat '0' ++ ['.', '0']
  else if 0 < m ∧ m ≤ 16 then
    digits.take m.toNat ++ '.' :: digits.drop m.toNat
  else if -5 < m ∧ m ≤ 0 then
    '0' :: '.' :: (List.replicate (-m).toNat '0' ++ digits)
  else
    let mantissa := match digits with
      | first :: second :: rest => first :: '.' :: second :: rest
      | short => short
    mantissa ++ 'e' :: (toString (m - 1)).toList

/-- The decimal as it is written. -/
def text (d : Decimal) : List Char :=
  if d.negative then '-' :: d.unsignedText else d.unsignedText

end Decimal

end FlowAssembly
