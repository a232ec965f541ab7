/-!
# Numerals

Readers and writers of whole numbers. A count in a setting or an index in a
path is read by `bounded?`: an optional plus sign, then ASCII digits and
nothing else, leading zeros allowed, refused above a limit.
-/

namespace FlowAssembly.Text

/-- The largest number that fits in 64 bits. -/
def limit64 : Nat := UInt64.size - 1

def isDecimalDigit (c : Char) : Bool :=
  '0' ≤ c && c ≤ '9'

/-- The number that has the digits of another number and a row of digits
behind them. -/
def digitsValueFrom (n : Nat) (digits : List Char) : Nat :=
  digits.foldl (fun n c => 10 * n + (c.toNat - '0'.toNat)) n

/-- The number that a row of digits is. -/
def digitsValue (digits : List Char) : Nat :=
  digitsValueFrom 0 digits

/-- Reads a non-empty row of ASCII digits. -/
def digits? (text : List Char) : Option Nat :=
  if text ≠ [] ∧ text.all isDecimalDigit then some (digitsValue text) else none

/-- Reads an optional plus sign and digits, refusing a number above the
limit. -/
def bounded? (limit : Nat) (text : List Char) : Option Nat :=
  let digits := match text with
    | '+' :: rest => rest
    | _ => text
  (digits? digits).filter (· ≤ limit)

/-- The number in base sixteen, in lower-case digits. -/
def hex (n : Nat) : List Char :=
  Nat.toDigits 16 n

/-- The number in base sixteen with zeros in front, up to a width. -/
def hexPadded (width n : Nat) : List Char :=
  let digits := hex n
  List.replicate (width - digits.length) '0' ++ digits

end FlowAssembly.Text
