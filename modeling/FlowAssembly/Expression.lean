import FlowAssembly.Message
import FlowAssembly.Text.Blank
import FlowAssembly.Text.Numeral
import FlowAssembly.Text.Segments

/-!
# Path expressions

An expression is a dotted path such as `payload.order.type` or
`headers.priority`. It is parsed when a flow is assembled and evaluated only
when the flow runs. Blanks around it are dropped; its first segment is one of
two roots, and no segment is empty.

Evaluation walks from the value of a message, a step per segment: the member
of that name in an object, or in an array the item at the index that the
segment denotes.
-/

namespace FlowAssembly

/-- Why an expression cannot be used. -/
inductive ExpressionError where
  | parse (text reason : String)
  | unresolved (text : String)
deriving DecidableEq, Repr

namespace ExpressionError

/-- The text of an error. -/
def message : ExpressionError → String
  | .parse text reason => "invalid expression '" ++ text ++ "': " ++ reason
  | .unresolved text =>
      "expression '" ++ text ++ "' did not resolve against the message"

/-- The code that an error is known by. -/
def code : ExpressionError → String
  | .parse .. => "wireflow::expression::parse"
  | .unresolved .. => "wireflow::expression::unresolved"

/-- What to do about an error, where there is something to say. -/
def help? : ExpressionError → Option String
  | .parse .. =>
      some ("Path expressions must start with 'payload' or 'headers' and use " ++
        "'.' separators.")
  | .unresolved .. => none

end ExpressionError

/-- A parsed path expression. -/
structure Expression where
  source : String
deriving DecidableEq, Repr

namespace Expression

/-- The parts of the path between its points. -/
def segments (e : Expression) : List (List Char) :=
  Text.segments e.source.toList

/-- The segments that a path may start with. -/
def roots : List (List Char) :=
  [['p', 'a', 'y', 'l', 'o', 'a', 'd'], ['h', 'e', 'a', 'd', 'e', 'r', 's']]

/-- Parses a path. The root is looked at before the other segments, and a
refusal quotes the text with its blanks. -/
def parse (text : String) : Except ExpressionError Expression :=
  let trimmed := Text.trim text.toList
  let parts := Text.segments trimmed
  let root := parts.headD []
  if ¬ roots.contains root then
    .error (.parse text ("unknown root '" ++ String.ofList root ++ "'"))
  else if parts.contains [] then
    .error (.parse text "empty path segment")
  else
    .ok ⟨String.ofList trimmed⟩

/-- One step of a path: a member of an object, or an item of an array by its
index. -/
def step (value : Json) (segment : List Char) : Option Json :=
  match value with
  | .object fields => fields.lookup (String.ofList segment)
  | .array items =>
      (Text.bounded? Text.limit64 segment).bind fun index => items[index]?
  | _ => none

/-- The value reached by the steps of a path. -/
def walk (value : Json) : List (List Char) → Option Json
  | [] => some value
  | segment :: rest => (step value segment).bind fun next => walk next rest

/-- The value of an expression for a message. -/
def evaluate (e : Expression) (m : Message) : Except ExpressionError Json :=
  match walk m.asValue e.segments with
  | some value => .ok value
  | none => .error (.unresolved e.source)

end Expression

end FlowAssembly
