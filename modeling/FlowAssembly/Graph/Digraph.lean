import FlowAssembly.Graph.Basic

/-!
# Numbered graphs

The edges of a flow between node numbers instead of names. The entries are the
first nodes, in order; an edge's end that names no entry becomes a node of its
own at its first use, the source of an edge before its target. Where several
nodes carry a name, the last of them stands for it.

`isCyclic` looks for a cycle by peeling: edges out of nodes that nothing leads
to are taken away, and the graph has a cycle when some edges can never be
taken away.
-/

namespace FlowAssembly

/-- An edge between two node numbers. -/
structure NumberedEdge where
  source : Nat
  target : Nat
  kind : EdgeKind
deriving DecidableEq, Repr

/-- Nodes by number, each with its name, and edges between them. -/
structure Digraph where
  nodes : List String
  edges : List NumberedEdge
deriving DecidableEq, Repr

namespace Digraph

/-- The place of the last text that equals the given one. -/
def lastIndex? (name : String) : List String → Option Nat
  | [] => none
  | node :: rest =>
      match lastIndex? name rest with
      | some n => some (n + 1)
      | none => if node = name then some 0 else none

/-- The number of the node that stands for a name. -/
def indexOf? (d : Digraph) (name : String) : Option Nat :=
  lastIndex? name d.nodes

/-- The number of the node that stands for a name, which is made if there is
none. -/
def intern (d : Digraph) (name : String) : Digraph × Nat :=
  match d.indexOf? name with
  | some n => (d, n)
  | none => ({ d with nodes := d.nodes ++ [name] }, d.nodes.length)

/-- Adds an edge by the names of its ends. -/
def addEdge (d : Digraph) (e : GraphEdge) : Digraph :=
  let (d, source) := d.intern e.source
  let (d, target) := d.intern e.target
  { d with edges := d.edges ++ [⟨source, target, e.kind⟩] }

/-- The edges whose source some edge leads to. -/
def peel (edges : List NumberedEdge) : List NumberedEdge :=
  edges.filter fun e => edges.any fun before => before.target = e.source

/-- Peels a number of times. -/
def peelTimes : Nat → List NumberedEdge → List NumberedEdge
  | 0, edges => edges
  | n + 1, edges => peelTimes n (peel edges)

/-- Whether some edges form a cycle. -/
def isCyclic (d : Digraph) : Bool :=
  !(peelTimes d.edges.length d.edges).isEmpty

end Digraph

namespace FlowGraph

/-- The numbered graph of a flow. -/
def toDigraph (g : FlowGraph) (taps : Interceptions) : Digraph :=
  (g.edges taps).foldl Digraph.addEdge ⟨g.entries.map GraphEntry.name, []⟩

end FlowGraph

end FlowAssembly
