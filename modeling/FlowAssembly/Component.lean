import FlowAssembly.Endpoint

/-!
# Components

A component is what a flow registers: a channel, an endpoint or a source.
-/

namespace FlowAssembly

/-- The three kinds of components. -/
inductive Category where
  | channel
  | endpoint
  | source
deriving DecidableEq, Repr

namespace Category

def name : Category → String
  | .channel => "channel"
  | .endpoint => "endpoint"
  | .source => "source"

def names : List (String × Category) :=
  [("channel", .channel), ("endpoint", .endpoint), ("source", .source)]

def ofJson? (value : Json) : Option Category :=
  Json.choice? names value

end Category

/-- What a flow registers. -/
inductive Component where
  | channel (channel : Channel)
  | endpoint (endpoint : Endpoint)
  | source (source : Source)

namespace Component

/-- The identity of a component. -/
def key : Component → ComponentKey
  | .channel c => c.key
  | .endpoint e => e.key
  | .source s => s.key

/-- Which kind it is. -/
def category : Component → Category
  | .channel _ => .channel
  | .endpoint _ => .endpoint
  | .source _ => .source

/-- The type in labels and generated names. -/
def componentType : Component → String
  | .channel c => c.componentType
  | .endpoint e => e.componentType
  | .source s => s.componentType

/-- The id that the caller gave it. -/
def id? : Component → Option String
  | .channel c => c.id
  | .endpoint e => e.id
  | .source s => s.id

/-- How errors call it. -/
def label : Component → String
  | .channel c => c.label
  | .endpoint e => e.label
  | .source s => s.label

/-- The component as a channel, if it is one. -/
def channel? : Component → Option Channel
  | .channel c => some c
  | _ => none

/-- The component as an endpoint, if it is one. -/
def endpoint? : Component → Option Endpoint
  | .endpoint e => some e
  | _ => none

/-- The component as a source, if it is one. -/
def source? : Component → Option Source
  | .source s => some s
  | _ => none

/-- What it reads from. -/
def input? : Component → Option Target
  | .endpoint e => some e.input
  | _ => none

/-- What it writes to. -/
def output? : Component → Option Target
  | .channel _ => none
  | .endpoint e => e.output
  | .source s => s.output

/-- The component with its output set; a channel has none. -/
def withOutput (target : Target) : Component → Component
  | .channel c => .channel c
  | .endpoint e => .endpoint { e with output := some target }
  | .source s => .source { s with output := some target }

@[simp]
theorem key_withOutput (target : Target) (c : Component) :
    (c.withOutput target).key = c.key := by
  cases c <;> rfl

end Component

end FlowAssembly
