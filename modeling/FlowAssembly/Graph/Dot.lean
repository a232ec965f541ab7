import FlowAssembly.Graph.Digraph

/-!
# DOT

A flow as a drawing in the DOT language: nodes by number, labelled with their
names, in a shape that shows the category; a node that names no entry is
dashed. Inside a label a quote is written with a backslash before it, and
every other character as it is.
-/

namespace FlowAssembly

namespace Dot

/-- A label between its quotes. -/
def escapeLabel (name : List Char) : List Char :=
  name.flatMap fun c => if c = '"' then ['\\', '"'] else [c]

/-- The shape of a node. A node that names no entry is dashed. -/
def nodeStyle : Option Category → String
  | some .channel => "shape=ellipse"
  | some .endpoint => "shape=box, style=rounded"
  | some .source => "shape=house"
  | none => "shape=ellipse, style=dashed"

/-- How an edge is drawn, after its kind. -/
def edgeStyle : EdgeKind → String
  | .input | .output => ""
  | .route => " [ style=bold ]"
  | .tap => " [ style=dotted ]"

/-- The line of a node. -/
def nodeLine (index : Nat) (name : String) (category : Option Category) : String :=
  "    " ++ toString index ++ " [ label=\"" ++
    String.ofList (escapeLabel name.toList) ++ "\", " ++ nodeStyle category ++
    " ];\n"

/-- The line of an edge. -/
def edgeLine (e : NumberedEdge) : String :=
  "    " ++ toString e.source ++ " -> " ++ toString e.target ++
    edgeStyle e.kind ++ ";\n"

/-- The text between braces. -/
def braced (text : String) : String :=
  String.singleton '{' ++ text ++ String.singleton '}'

end Dot

namespace FlowGraph

/-- The category of the first entry of a name. -/
def categoryOf? (g : FlowGraph) (name : String) : Option Category :=
  (g.entryNamed? name).map fun e => e.component.category

/-- The drawing of a flow. That of a channel `in` with a bridge behind it reads
```
digraph {
    rankdir=LR;
    0 [ label="in", shape=ellipse ];
    1 [ label="f.bridge#0", shape=box, style=rounded ];

    0 -> 1;
}
```
-/
def toDot (g : FlowGraph) (taps : Interceptions) : String :=
  let d := g.toDigraph taps
  let nodes := d.nodes.zipIdx.map fun (name, index) =>
    Dot.nodeLine index name (g.categoryOf? name)
  let edges := d.edges.map Dot.edgeLine
  "digraph " ++ Dot.braced
    ("\n    rankdir=LR;\n" ++ String.join nodes ++ "\n" ++ String.join edges) ++
    "\n"

end FlowGraph

end FlowAssembly
