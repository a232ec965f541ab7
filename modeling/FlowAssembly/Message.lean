import FlowAssembly.Json.Record

/-!
# Messages

A message is a payload with named headers. The assembler sends none: messages
are what expressions are evaluated on and what the functions of handlers take.

`asValue` is the object that paths start from, `toJson` the message as a
record, and `ofJson?` reads that record back: an object or an array of the two
fields, where only the payload has to be given.
-/

namespace FlowAssembly

/-- A payload with headers. Both are canonical, and the headers are sorted by
name. -/
structure Message where
  headers : Fields
  payload : Json
deriving Repr, Inhabited

namespace Message

/-- The header that a scatter writes and its gatherer reads. -/
def correlationId : String := "correlationId"

/-- The header with the place of a message in a sequence. -/
def sequenceNumber : String := "sequenceNumber"

/-- The header with the length of a sequence. -/
def sequenceSize : String := "sequenceSize"

/-- The header that names where a reply goes when a handler has no output. -/
def replyChannel : String := "replyChannel"

/-- The header that names where failures go. -/
def errorChannel : String := "errorChannel"

/-- A message without headers. -/
def new (payload : Json) : Message :=
  ⟨[], payload.canonical⟩

/-- Sets a header, replacing an earlier value under the name. -/
def withHeader (m : Message) (name : String) (value : Json) : Message :=
  { m with headers := Fields.insert name value.canonical m.headers }

/-- The value of a header. -/
def header? (m : Message) (name : String) : Option Json :=
  m.headers.get? name

/-- The object whose members are the headers and the payload. -/
def asValue (m : Message) : Json :=
  .object [("headers", .object m.headers), ("payload", m.payload)]

def fieldNames : List String := ["headers", "payload"]

def shape : Json.Shape :=
  .record (fieldNames.map fun name => (name, .any))

/-- The message as a record. -/
def toJson (m : Message) : Json :=
  .object (fieldNames.zip [.object m.headers, m.payload])

/-- The headers of a record: an object. -/
def headersOf? : Json → Option Fields
  | .object fields => some (Json.canonicalFields fields)
  | _ => none

/-- Reads the record of a message. Without headers there are none; without a
payload it is no message. -/
def ofJson? (value : Json) : Option Message := do
  let r ← value.record? fieldNames
  let headers ← r.getD "headers" [] headersOf?
  let payload ← r.get? "payload"
  some ⟨headers, payload.canonical⟩

theorem header?_withHeader_self (m : Message) (name : String) (value : Json) :
    (m.withHeader name value).header? name = some value.canonical :=
  Fields.lookup_insert_self ..

theorem header?_withHeader_of_ne (m : Message) {name other : String}
    (h : other ≠ name) (value : Json) :
    (m.withHeader name value).header? other = m.header? other :=
  Fields.lookup_insert_of_ne h ..

end Message

end FlowAssembly
