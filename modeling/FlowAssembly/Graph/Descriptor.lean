import FlowAssembly.Graph.Basic
import FlowAssembly.Json.Record

/-!
# Flow descriptors

A descriptor is a summary of a finished flow in texts only, to be kept as
JSON. Fields of a component that have their usual value are left out when it
is written and may be left out when it is read.
-/

namespace FlowAssembly

/-- The summary of a component. -/
structure ComponentDescriptor where
  name : String
  category : Category
  componentType : String
  implicit : Bool
  input : Option String
  output : Option String
  interceptors : List String
deriving DecidableEq, Repr

/-- The summary of a flow. -/
structure FlowDescriptor where
  flowId : String
  inputChannel : Option String
  components : List ComponentDescriptor
  edges : List GraphEdge
deriving DecidableEq, Repr

namespace FlowGraph

/-- The summary of an entry. Targets stand in it as they do in edges. -/
def describeEntry (g : FlowGraph) (taps : Interceptions) (e : GraphEntry) :
    ComponentDescriptor where
  name := e.name
  category := e.component.category
  componentType := e.component.componentType
  implicit := match e.component with
    | .channel c => c.implicit
    | _ => false
  input := e.component.input?.map g.targetName
  output := e.component.output?.map g.targetName
  interceptors := match e.component with
    | .channel c => (taps c.key).map Interceptor.label
    | _ => []

/-- The name of the channel that the flow reads from. -/
def inputName? (g : FlowGraph) : Option String :=
  g.namedInput <|> (g.inputChannel.toOption.bind fun c => g.nameOf? c.key)

/-- The summary of a flow: its entries in order, and its edges. -/
def describe (g : FlowGraph) (taps : Interceptions) : FlowDescriptor where
  flowId := g.flowId
  inputChannel := g.inputName?
  components := g.entries.map (g.describeEntry taps)
  edges := g.edges taps

end FlowGraph

namespace GraphEdge

/-- The names of an edge's record, in order. -/
def fieldNames : List String := ["from", "to", "kind"]

def shape : Json.Shape :=
  .record (fieldNames.map fun name => (name, .any))

/-- The edge as a record. -/
def toJson (e : GraphEdge) : Json :=
  .object [("from", .string e.source), ("to", .string e.target),
    ("kind", .string e.kind.name)]

/-- Reads the record of an edge. -/
def ofJson? (value : Json) : Option GraphEdge := do
  let r ← value.record? fieldNames
  let source ← (← r.get? "from").asString?
  let target ← (← r.get? "to").asString?
  let kind ← Json.choice? EdgeKind.names (← r.get? "kind")
  some { source, target, kind }

end GraphEdge

namespace ComponentDescriptor

def fieldNames : List String :=
  ["name", "category", "component_type", "implicit", "input", "output",
    "interceptors"]

def shape : Json.Shape :=
  .record (fieldNames.map fun name => (name, .any))

/-- The component as a record; a field with its usual value is left out. -/
def toJson (c : ComponentDescriptor) : Json :=
  .object <| [("name", .string c.name), ("category", .string c.category.name),
    ("component_type", .string c.componentType)] ++
    (if c.implicit then [("implicit", .bool true)] else []) ++
    (c.input.toList.map fun name => ("input", .string name)) ++
    (c.output.toList.map fun name => ("output", .string name)) ++
    (if c.interceptors.isEmpty then []
      else [("interceptors", .array (c.interceptors.map Json.string))])

/-- Reads the record of a component; a field that was left out has its usual
value. -/
def ofJson? (value : Json) : Option ComponentDescriptor := do
  let r ← value.record? fieldNames
  let name ← (← r.get? "name").asString?
  let category ← Category.ofJson? (← r.get? "category")
  let componentType ← (← r.get? "component_type").asString?
  let implicit ← r.getD "implicit" false Json.asBool?
  let input ← r.getD "input" none Json.asOptionalString?
  let output ← r.getD "output" none Json.asOptionalString?
  let interceptors ← r.getD "interceptors"
    [] fun value => do (← value.asArray?).mapM Json.asString?
  some { name, category, componentType, implicit, input, output, interceptors }

end ComponentDescriptor

namespace FlowDescriptor

def fieldNames : List String := ["flow_id", "input_channel", "components", "edges"]

def shape : Json.Shape :=
  .record (fieldNames.zip [.any, .any, .list ComponentDescriptor.shape,
      .list GraphEdge.shape])

/-- The summary as a record. -/
def toJson (d : FlowDescriptor) : Json :=
  .object [("flow_id", .string d.flowId),
    ("input_channel", Json.ofOption Json.string d.inputChannel),
    ("components", .array (d.components.map ComponentDescriptor.toJson)),
    ("edges", .array (d.edges.map GraphEdge.toJson))]

/-- Reads the record of a flow. -/
def ofJson? (value : Json) : Option FlowDescriptor := do
  let r ← value.record? fieldNames
  let flowId ← (← r.get? "flow_id").asString?
  let inputChannel ← (← r.nullable? "input_channel").asOptionalString?
  let components ← (← (← r.get? "components").asArray?).mapM
    ComponentDescriptor.ofJson?
  let edges ← (← (← r.get? "edges").asArray?).mapM GraphEdge.ofJson?
  some { flowId, inputChannel, components, edges }

end FlowDescriptor

end FlowAssembly
