import FlowAssembly.Numeric.Shortest

/-!
# Numbers

A JSON number is a whole number of 64 bits, signed or unsigned, or a double. A
double is written as its shortest decimal, with a point or an exponent even
where its value is whole, so that the two kinds are told apart in a text.
-/

namespace FlowAssembly

/-- A number of JSON: a whole one in 64 bits, or a double. -/
inductive Number where
  | integer (value : Int)
  | double (value : Double)
deriving DecidableEq, Repr

namespace Number

/-- Whether a whole number fits in 64 bits, signed when below zero and
unsigned otherwise. -/
def fits (value : Int) : Bool :=
  Int64.minValue.toInt ≤ value && value < UInt64.size

/-- How the number is written. -/
def text : Number → List Char
  | .integer value => (toString value).toList
  | .double value => value.toDecimal.text

end Number

end FlowAssembly
