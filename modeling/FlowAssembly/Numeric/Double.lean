/-!
# Doubles

The finite numbers of the 64-bit floating-point format. A magnitude is a
significand below 2^53 times a power of two, and every magnitude is a whole
number of units of 2^-1074, the smallest one. An operation is its exact result
rounded to the nearest magnitude, to the even significand where two are
equally near; a result beyond the largest magnitude is none. The arithmetic is
on natural numbers throughout.
-/

namespace FlowAssembly

/-- A magnitude: `significand * 2 ^ scale` units of `2 ^ -1074`. -/
structure Magnitude where
  significand : Nat
  scale : Nat
deriving DecidableEq, Repr

/-- A finite double; zero has a sign too. -/
structure Double where
  negative : Bool
  magnitude : Magnitude
deriving DecidableEq, Repr

namespace Magnitude

/-- How many bits a significand has. -/
def precision : Nat := 53

/-- The binary logarithm of one in units. -/
def unitBits : Nat := 1074

/-- The largest scale. -/
def scaleLimit : Nat := 2045

def zero : Magnitude := ⟨0, 0⟩

/-- The magnitude as a number of units. -/
def units (x : Magnitude) : Nat :=
  x.significand <<< x.scale

/-- The natural number nearest to a quotient, the even one of two that are
equally near. -/
def nearest (num den : Nat) : Nat :=
  let quotient := num / den
  let twice := 2 * (num % den)
  if twice < den then quotient
  else if den < twice then quotient + 1
  else if quotient % 2 = 0 then quotient else quotient + 1

/-- Rounds a quotient of units. A significand has all its bits unless the
scale is zero. -/
def round (num den : Nat) : Option Magnitude :=
  let scale := (num / den).log2 - (precision - 1)
  let significand := nearest num (den <<< scale)
  let result : Magnitude :=
    if significand < 1 <<< precision then ⟨significand, scale⟩
    else ⟨significand / 2, scale + 1⟩
  if result.scale ≤ scaleLimit then some result else none

/-- The magnitude nearest to a number. -/
def ofNat (n : Nat) : Option Magnitude :=
  round (n <<< unitBits) 1

/-- The magnitude nearest to a product. -/
def mul (x y : Magnitude) : Option Magnitude :=
  round (x.units * y.units) (1 <<< unitBits)

/-- The magnitude nearest to a quotient. -/
def div (x y : Magnitude) : Option Magnitude :=
  round (x.units <<< unitBits) y.units

/-- The magnitude nearest to a power of ten. -/
def tenTo (exponent : Nat) : Option Magnitude :=
  ofNat (Nat.pow 10 exponent)

/-- The largest power of ten among the magnitudes. -/
def tenLimit : Nat := 308

/-- A number times a power of ten: one multiplication or division by a power
of ten. A division by more than the largest power takes two steps, each
rounded, and by more than its square gives zero. -/
def scaled (n : Nat) (exponent : Int) : Option Magnitude := do
  if n = 0 then return zero
  let x ← ofNat n
  let places := exponent.natAbs
  if 0 ≤ exponent then
    if places ≤ tenLimit then x.mul (← tenTo places) else none
  else if places ≤ tenLimit then
    x.div (← tenTo places)
  else if places ≤ 2 * tenLimit then
    (← x.div (← tenTo tenLimit)).div (← tenTo (places - tenLimit))
  else
    return zero

end Magnitude

end FlowAssembly
