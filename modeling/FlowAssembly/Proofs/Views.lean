import FlowAssembly.Graph.Descriptor
import FlowAssembly.Proofs.Cyclicity
import Mathlib.Data.List.Induction

/-!
# The views of a flow agree

The edges of a finished flow, its descriptor and its numbered graph are three
ways to look at one thing. The descriptor lists components, each with the
texts of what it reads from and writes to; spelled out in order, these texts
are the edges of those two kinds. The numbered graph has numbers instead of
texts; read back through its nodes, its edges are those of the flow. Its first
nodes are the entries, and each of the others is a text that an edge needs and
no entry has (`FirstUses`).

None of this asks that names be distinct. A text that several entries have is
read back from whichever of them stands for it.
-/

namespace FlowAssembly

/-! ## First uses -/

/-- The texts of a list that are not known yet, each once, in the order in
which they are used first. -/
structure FirstUses (known uses others : List String) : Prop where
  mem_iff : ∀ text, text ∈ others ↔ text ∈ uses ∧ text ∉ known
  nodup : others.Nodup
  ordered : others.Pairwise fun s t => uses.idxOf s < uses.idxOf t

/-- What is inserted behind known texts is what is used first. -/
theorem FlowGraph.exists_firstUses (known uses : List String) :
    ∃ others, uses.foldl insertNew known = known ++ others ∧
      FirstUses known uses others := by
  induction uses using List.reverseRecOn with
  | nil => exact ⟨[], (List.append_nil known).symm, by simp, .nil, .nil⟩
  | append_singleton uses text ih =>
      obtain ⟨others, heq, hmem, hnodup, hordered⟩ := ih
      have hsame : ∀ s ∈ others, (uses ++ [text]).idxOf s = uses.idxOf s :=
        fun s hs => List.idxOf_append_of_mem ((hmem s).1 hs).1
      have hstill : others.Pairwise fun s t =>
          (uses ++ [text]).idxOf s < (uses ++ [text]).idxOf t :=
        hordered.imp_of_mem fun hs ht hlt => by rwa [hsame _ hs, hsame _ ht]
      rw [List.foldl_append, List.foldl_cons, List.foldl_nil, heq, insertNew]
      by_cases hold : text ∈ known ++ others
      · refine ⟨others, if_pos (List.contains_iff_mem.2 hold), fun s => ?_,
          hnodup, hstill⟩
        rw [hmem, List.mem_append, List.mem_singleton]
        refine ⟨fun h => ⟨.inl h.1, h.2⟩,
          fun ⟨h, hnot⟩ => ⟨h.elim id fun heq => ?_, hnot⟩⟩
        subst heq
        exact ((hmem s).1 ((List.mem_append.1 hold).resolve_left hnot)).1
      · have hknown : text ∉ known := fun h => hold (List.mem_append_left _ h)
        have hothers : text ∉ others := fun h => hold (List.mem_append_right _ h)
        have hunused : text ∉ uses := fun h => hothers ((hmem text).2 ⟨h, hknown⟩)
        refine ⟨others ++ [text], ?_, fun s => ?_, ?_, ?_⟩
        · rw [if_neg fun h => hold (List.contains_iff_mem.1 h), List.append_assoc]
        · rw [List.mem_append, hmem, List.mem_append, List.mem_singleton,
            or_and_right]
          exact or_congr_right ⟨fun h => ⟨h, h ▸ hknown⟩, And.left⟩
        · exact List.nodup_append.2 ⟨hnodup, by simp, fun s hs t ht heq =>
            hothers (List.mem_singleton.1 ht ▸ heq ▸ hs)⟩
        · refine List.pairwise_append.2 ⟨hstill, List.pairwise_singleton _ _,
            fun s hs t ht => ?_⟩
          obtain rfl := List.mem_singleton.1 ht
          rw [hsame s hs, List.idxOf_append_of_notMem hunused]
          exact Nat.lt_of_lt_of_le (List.idxOf_lt_length_of_mem ((hmem s).1 hs).1)
            (Nat.le_add_right _ _)

/-! ## Nodes of a numbered graph -/

namespace Digraph

theorem lastIndex?_eq_none_iff {name : String} {nodes : List String} :
    lastIndex? name nodes = none ↔ name ∉ nodes := by
  induction nodes with
  | nil => simp [lastIndex?]
  | cons node rest ih =>
      rw [lastIndex?, List.mem_cons, not_or, ← ih]
      cases lastIndex? name rest with
      | some n => simp
      | none => simp [eq_comm]

theorem nodes_intern (d : Digraph) (name : String) :
    (d.intern name).1.nodes = FlowGraph.insertNew d.nodes name := by
  unfold intern FlowGraph.insertNew
  split
  · next n hn =>
      have hmem : name ∈ d.nodes := List.mem_of_getElem? (getElem?_of_lastIndex? hn)
      rw [if_pos (List.contains_iff_mem.2 hmem)]
  · next hnone =>
      rw [if_neg fun h => lastIndex?_eq_none_iff.1 hnone
        (List.contains_iff_mem.1 h)]

end Digraph

/-- The texts that edges lead between, the source of each before its target. -/
def GraphEdge.ends (edges : List GraphEdge) : List String :=
  edges.flatMap fun e => [e.source, e.target]

theorem Digraph.nodes_foldl (edges : List GraphEdge) (d : Digraph) :
    (edges.foldl addEdge d).nodes =
      (GraphEdge.ends edges).foldl FlowGraph.insertNew d.nodes := by
  induction edges generalizing d with
  | nil => rfl
  | cons e edges ih =>
      have hnodes :
          (d.addEdge e).nodes = ((d.intern e.source).1.intern e.target).1.nodes :=
        rfl
      rw [List.foldl_cons, ih, hnodes, nodes_intern, nodes_intern]
      rfl

/-- The edges of a numbered graph with the texts of their nodes in place of
the numbers. -/
def Digraph.readBack (d : Digraph) :
    List (Option String × Option String × EdgeKind) :=
  d.edges.map fun e => (d.nodes[e.source]?, d.nodes[e.target]?, e.kind)

/-- The edges that the summary of a component spells: from what it reads, and
to what it writes. -/
def ComponentDescriptor.spelled (c : ComponentDescriptor) : List GraphEdge :=
  (c.input.toList.map fun text => ⟨text, c.name, .input⟩) ++
    (c.output.toList.map fun text => ⟨c.name, text, .output⟩)

/-- Whether the edge is along the chain: what a component reads from, or what
it writes to. -/
def EdgeKind.isChained : EdgeKind → Bool
  | .input | .output => true
  | .route | .tap => false

namespace FlowGraph

variable (g : FlowGraph) (taps : Interceptions)

/-- An entry has the edges of a chain that its summary spells. -/
theorem filter_entryEdges (e : GraphEntry) :
    (g.entryEdges taps e).filter (fun edge => edge.kind.isChained) =
      (g.describeEntry taps e).spelled := by
  unfold entryEdges describeEntry ComponentDescriptor.spelled
  cases e.component with
  | channel c =>
      refine (List.filter_eq_nil_iff.2 fun edge hedge => ?_).trans rfl
      obtain ⟨target, -, rfl⟩ := List.mem_map.1 hedge
      exact Bool.false_ne_true
  | endpoint p =>
      cases hp : p.output
        <;> simp [Component.input?, Component.output?, EdgeKind.isChained, hp]
  | source s =>
      cases hs : s.output
        <;> simp [Component.input?, Component.output?, EdgeKind.isChained, hs]

/-- The edges of a flow, its descriptor and its numbered graph agree, whatever
its entries are called. The edges from inputs and to outputs are spelled by
the components of the descriptor, in order. The numbered graph has the entries
for its first nodes, behind them the ends of edges that no entry is called, in
the order of their first use, and it has the edges of the flow when it is read
back through its nodes. -/
theorem views_agree :
    (g.edges taps).filter (fun edge => edge.kind.isChained) =
      (g.describe taps).components.flatMap ComponentDescriptor.spelled ∧
    (g.describe taps).edges = g.edges taps ∧
    (∃ others, (g.toDigraph taps).nodes = g.entries.map GraphEntry.name ++ others ∧
      FirstUses (g.entries.map GraphEntry.name)
        (GraphEdge.ends (g.edges taps)) others) ∧
    (g.toDigraph taps).readBack = (g.edges taps).map fun e =>
      (some e.source, some e.target, e.kind) := by
  refine ⟨?_, rfl, ?_, ?_⟩
  · rw [edges, List.filter_flatMap, describe, List.flatMap_map]
    exact List.flatMap_congr fun e _ => g.filter_entryEdges taps e
  · rw [toDigraph, Digraph.nodes_foldl]
    exact exists_firstUses _ _
  · rw [Digraph.readBack, ← List.forall₂_eq_eq_eq, List.forall₂_map_left_iff,
      List.forall₂_map_right_iff]
    refine (g.numbers_toDigraph taps).imp fun n e ⟨hsource, htarget, hkind⟩ => ?_
    rw [Digraph.getElem?_of_lastIndex? hsource,
      Digraph.getElem?_of_lastIndex? htarget, hkind]

end FlowGraph

end FlowAssembly
