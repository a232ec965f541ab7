import FlowAssembly.Json.Basic
import FlowAssembly.Text.Numeral

/-!
# Writing JSON

`Json.compact` writes a value without blanks, its fields in the order they
have. In a text only the quote, the backslash and the control characters below
U+0020 are escaped: five of them by a letter, the others by four digits.
-/

namespace FlowAssembly.Json

/-- A character as it is written between quotes. -/
def escaped (c : Char) : List Char :=
  if c = '"' then ['\\', '"']
  else if c = '\\' then ['\\', '\\']
  else if c = '\n' then ['\\', 'n']
  else if c = '\r' then ['\\', 'r']
  else if c = '\t' then ['\\', 't']
  else if c.toNat = 8 then ['\\', 'b']
  else if c.toNat = 12 then ['\\', 'f']
  else if c.toNat < 32 then '\\' :: 'u' :: Text.hexPadded 4 c.toNat
  else [c]

/-- A text between quotes. -/
def quoted (text : String) : List Char :=
  '"' :: (text.toList.flatMap escaped ++ ['"'])

mutual

/-- The value as text, without blanks. -/
def compact : Json → List Char
  | .null => ['n', 'u', 'l', 'l']
  | .bool true => ['t', 'r', 'u', 'e']
  | .bool false => ['f', 'a', 'l', 's', 'e']
  | .number value => value.text
  | .string value => quoted value
  | .array items => '[' :: (compactItems items ++ [']'])
  | .object fields => '{' :: (compactFields fields ++ ['}'])

/-- The items with commas between them. -/
def compactItems : List Json → List Char
  | [] => []
  | [last] => last.compact
  | item :: rest => item.compact ++ ',' :: compactItems rest

/-- The fields with commas between them. -/
def compactFields : List (String × Json) → List Char
  | [] => []
  | [(name, value)] => quoted name ++ ':' :: value.compact
  | (name, value) :: rest =>
      quoted name ++ ':' :: (value.compact ++ ',' :: compactFields rest)

end

end FlowAssembly.Json
