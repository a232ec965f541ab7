import FlowAssembly.Registry
import FlowAssembly.Error

/-!
# Flow graphs

A finished flow: its components in order, each under a name. A component keeps
the name it was registered under; the others are named after the flow, their
type and a count of the unnamed components of that type before them.

Edges lead between names. A channel that the flow does not register stands in
them by its label, and a reference by its name. Wire taps are read off the
channels' interceptors, which may change after the flow is finished; whoever
asks for edges says which interceptors the channels have.
-/

namespace FlowAssembly

/-- A component of a finished flow under its name. -/
structure GraphEntry where
  name : String
  /-- Whether the name was made up by the assembler. -/
  generated : Bool
  component : Component

/-- A finished flow. -/
structure FlowGraph where
  flowId : String
  entries : List GraphEntry
  /-- The name of the channel it reads from, when that is a reference. -/
  namedInput : Option String
  /-- The channel it reads from, when side flows stand ahead of it. -/
  input : Option ComponentKey

/-- How an edge comes about. -/
inductive EdgeKind where
  /-- A channel feeds an endpoint. -/
  | input
  /-- An endpoint or a source writes to a target. -/
  | output
  /-- A handler sends to a target by itself. -/
  | route
  /-- A wire tap copies messages to a target. -/
  | tap
deriving DecidableEq, Repr

namespace EdgeKind

def name : EdgeKind → String
  | .input => "input"
  | .output => "output"
  | .route => "route"
  | .tap => "tap"

def names : List (String × EdgeKind) :=
  [("input", .input), ("output", .output), ("route", .route), ("tap", .tap)]

end EdgeKind

/-- A directed edge between two names. -/
structure GraphEdge where
  source : String
  target : String
  kind : EdgeKind
deriving DecidableEq, Repr

/-- Names the entries of a registry: an unnamed one after the flow, its type
and the number of unnamed entries of that type among the types seen so far. -/
def nameEntries (flowId : String) : List String → List Entry → List GraphEntry
  | _, [] => []
  | seen, e :: rest =>
      match e.name with
      | some name => ⟨name, false, e.component⟩ :: nameEntries flowId seen rest
      | none =>
          let type := e.component.componentType
          ⟨flowId ++ "." ++ type ++ "#" ++ toString (seen.count type), true,
            e.component⟩ :: nameEntries flowId (type :: seen) rest

namespace FlowGraph

/-- The components in order of registration. -/
def components (g : FlowGraph) : List Component :=
  g.entries.map GraphEntry.component

/-- The channels in order of registration. -/
def channels (g : FlowGraph) : List Channel :=
  g.components.filterMap Component.channel?

/-- The endpoints in order of registration. -/
def endpoints (g : FlowGraph) : List Endpoint :=
  g.components.filterMap Component.endpoint?

/-- The sources in order of registration. -/
def sources (g : FlowGraph) : List Source :=
  g.components.filterMap Component.source?

/-- The channel that the flow reads from: the remembered one, or else the
first. -/
def inputChannel (g : FlowGraph) : Except FlowError Channel :=
  let remembered := g.input.bind fun key => g.channels.find? fun c => c.key = key
  match remembered <|> g.channels.head? with
  | some channel => .ok channel
  | none => .error (.noInputChannel g.flowId)

/-- The first entry under a name. -/
def entryNamed? (g : FlowGraph) (name : String) : Option GraphEntry :=
  g.entries.find? fun e => e.name = name

/-- The name of the entry of a component. -/
def nameOf? (g : FlowGraph) (key : ComponentKey) : Option String :=
  (g.entries.find? fun e => e.component.key = key).map GraphEntry.name

/-- The text that a target has in edges: the name of its entry, the label of a
channel without one, or the referenced name. -/
def targetName (g : FlowGraph) : Target → String
  | .channel c => (g.nameOf? c.key).getD c.label
  | .named name => name

/-- The edges of one entry. A channel has one to each target of its wire taps.
An endpoint has one from what it reads, one to its output and one to each
target that its handler sends to. A source has one to its output. -/
def entryEdges (g : FlowGraph) (taps : Interceptions) (e : GraphEntry) :
    List GraphEdge :=
  match e.component with
  | .channel c =>
      ((taps c.key).filterMap Interceptor.tapTarget?).map fun t =>
        ⟨e.name, g.targetName t, .tap⟩
  | .endpoint p =>
      ⟨g.targetName p.input, e.name, .input⟩ ::
        (p.output.toList.map fun t => ⟨e.name, g.targetName t, .output⟩) ++
        (p.handler.routeTargets.map fun t => ⟨e.name, g.targetName t, .route⟩)
  | .source s => s.output.toList.map fun t => ⟨e.name, g.targetName t, .output⟩

/-- The edges of a flow: those of its entries, in order. -/
def edges (g : FlowGraph) (taps : Interceptions) : List GraphEdge :=
  g.entries.flatMap (g.entryEdges taps)

/-- The targets that a component has to do with, in the order of its edges. -/
def componentTargets (taps : Interceptions) : Component → List Target
  | .channel c => (taps c.key).filterMap Interceptor.tapTarget?
  | .endpoint e => e.input :: e.output.toList ++ e.handler.routeTargets
  | .source s => s.output.toList

/-- Adds a text behind a list that does not hold it. -/
def insertNew (texts : List String) (text : String) : List String :=
  if texts.contains text then texts else texts ++ [text]

/-- Every name that the flow refers to, once, in order of first use. -/
def namedReferences (g : FlowGraph) (taps : Interceptions) : List String :=
  let used :=
    g.components.flatMap fun c => (componentTargets taps c).filterMap Target.name?
  (g.namedInput.toList ++ used).foldl insertNew []

end FlowGraph

end FlowAssembly
