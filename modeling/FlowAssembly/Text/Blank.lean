/-!
# Blank characters

An expression or a flag may stand between blanks. A character is blank when it
has the White_Space property: 25 code points, in ten ranges. The set is
neither the ASCII one nor the one of the general category `Zs`: it has the
next-line control U+0085, and it lacks the zero-width no-break space U+FEFF.
-/

namespace FlowAssembly.Text

/-- The code points with the White_Space property, as closed ranges in
ascending order. -/
def blankRanges : List (Nat × Nat) :=
  [(0x09, 0x0D), (0x20, 0x20), (0x85, 0x85), (0xA0, 0xA0), (0x1680, 0x1680),
    (0x2000, 0x200A), (0x2028, 0x2029), (0x202F, 0x202F), (0x205F, 0x205F),
    (0x3000, 0x3000)]

/-- Whether a character has the White_Space property. -/
def isBlank (c : Char) : Bool :=
  blankRanges.any fun range => range.1 ≤ c.toNat && c.toNat ≤ range.2

def trimStart (text : List Char) : List Char :=
  text.dropWhile isBlank

def trimEnd (text : List Char) : List Char :=
  (text.reverse.dropWhile isBlank).reverse

/-- The text without the blanks at its two ends; blanks inside stay. -/
def trim (text : List Char) : List Char :=
  trimEnd (trimStart text)

end FlowAssembly.Text
