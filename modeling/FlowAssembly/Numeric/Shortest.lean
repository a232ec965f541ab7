import FlowAssembly.Numeric.Decimal
import FlowAssembly.Numeric.Double

/-!
# Shortest decimals

A double is written with the fewest digits that single it out. The reals that
are rounded to a magnitude are an interval around it, its ends included when
the significand is even. For one digit, two digits and so on, the search looks
at the two decimals of that many digits that enclose the magnitude, the nearer
first, and takes the first one inside the interval.
-/

namespace FlowAssembly

namespace Magnitude

/-- Compares `digits * 10 ^ exponent` with a number of quarter units. -/
def compareQuarters (digits : Nat) (exponent : Int) (quarters : Nat) : Ordering :=
  compare ((digits * Nat.pow 10 exponent.toNat) <<< (unitBits + 2))
    (quarters * Nat.pow 10 (-exponent).toNat)

/-- Whether `digits * 10 ^ exponent` is rounded to the magnitude. Below a
significand of one bit the gap is half as wide as above it. -/
def covers (x : Magnitude) (digits : Nat) (exponent : Int) : Bool :=
  let narrow := x.significand = 1 <<< (precision - 1) ∧ x.scale ≠ 0
  let low := 4 * x.units - (if narrow then 1 else 2) <<< x.scale
  let high := 4 * x.units + 2 <<< x.scale
  let atEnd := x.significand % 2 = 0
  let lower := compareQuarters digits exponent low
  let upper := compareQuarters digits exponent high
  (lower = .gt ∨ (atEnd ∧ lower = .eq)) ∧ (upper = .lt ∨ (atEnd ∧ upper = .eq))

/-- How many places left of the point the first digit of a magnitude other
than zero stands. -/
def firstPlace (x : Magnitude) : Int :=
  let one := 1 <<< unitBits
  if one ≤ x.units then (Nat.toDigits 10 (x.units / one)).length
  else 1 - ((Nat.toDigits 10 ((one - 1) / x.units)).length : Int)

/-- The decimal of so many digits that is rounded to the magnitude, if there
is one; of two the nearer, and of two equally near the even one. -/
def decimal? (x : Magnitude) (count : Nat) : Option (Nat × Int) :=
  let exponent := x.firstPlace - count
  let num := x.units * Nat.pow 10 (-exponent).toNat
  let den := Nat.pow 10 exponent.toNat <<< unitBits
  let near := nearest num den
  let below := num / den
  let far := if near = below then below + 1 else below
  [near, far].findSome? fun digits => if x.covers digits exponent then some
    (digits, exponent) else none

/-- The most digits that a double needs. -/
def digitLimit : Nat := 17

/-- The shortest decimal that is rounded to the magnitude; should there be
none, the magnitude itself. -/
def shortest (x : Magnitude) : Nat × Int :=
  ((List.range digitLimit).findSome? fun n => x.decimal? (n + 1)).getD
    (x.units * Nat.pow 5 unitBits, -(unitBits : Int))

end Magnitude

/-- The decimal that a double is written as. -/
def Double.toDecimal (d : Double) : Decimal :=
  if d.magnitude.significand = 0 then .normal d.negative 0 0
  else
    let (digits, exponent) := d.magnitude.shortest
    .normal d.negative digits exponent

end FlowAssembly
