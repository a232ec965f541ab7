import FlowAssembly.Graph.Digraph
import Mathlib.Data.List.Forall2
import Mathlib.Logic.Relation

/-!
# What makes a graph cyclic

The check of a numbered graph takes away the edges out of nodes that nothing
leads to, as often as there are edges. If no walk returns to where it started,
then among any edges there is one whose source no other of them leads to, so
that each round takes something away and nothing is left. The edges of a walk
that does return are never taken away.

The numbered graph of a flow has one edge for each edge between texts, and a
text keeps the number that it got. So walks between numbers are walks between
texts, and the check tells whether the edges of the flow have a cycle.
-/

namespace FlowAssembly

open Relation

namespace Digraph

/-- One of the edges leads from the one node to the other. -/
def Leads (edges : List NumberedEdge) (m n : Nat) : Prop :=
  ∃ e ∈ edges, e.source = m ∧ e.target = n

variable {edges left : List NumberedEdge}

theorem mem_peel {e : NumberedEdge} : e ∈ peel edges ↔
      e ∈ edges ∧ ∃ before ∈ edges, before.target = e.source := by
  simp [peel]

/-! ## Graphs without a closed walk -/

/-- Some edge of the list starts where no walk leads from the end of another
one. -/
theorem exists_first (h : ∀ n, ¬ TransGen (Leads edges) n n) (hne : left ≠ [])
    (hs : left ⊆ edges) :
    ∃ e ∈ left, ∀ before ∈ left,
      ¬ ReflTransGen (Leads edges) before.target e.source := by
  have hself : ∀ e ∈ edges, ¬ ReflTransGen (Leads edges) e.target e.source :=
    fun e he hw => h e.source (TransGen.head' ⟨e, he, rfl, rfl⟩ hw)
  induction left with
  | nil => exact absurd rfl hne
  | cons e left ih =>
      obtain ⟨he, hs⟩ := List.cons_subset.1 hs
      by_cases hrest : left = []
      · subst hrest
        refine ⟨e, List.mem_cons_self, fun before hb => ?_⟩
        obtain rfl := List.mem_singleton.1 hb
        exact hself before he
      obtain ⟨first, hfirst, hnone⟩ := ih hrest hs
      by_cases hw : ReflTransGen (Leads edges) e.target first.source
      · -- the edge is ahead of the one that was first, so whatever is ahead of
        -- it would be ahead of that one too
        refine ⟨e, List.mem_cons_self, fun before hb hwalk => ?_⟩
        rcases List.mem_cons.1 hb with rfl | hb
        · exact hself before he hwalk
        · exact hnone before hb ((hwalk.tail ⟨e, he, rfl, rfl⟩).trans hw)
      · refine ⟨first, List.mem_cons_of_mem _ hfirst, fun before hb => ?_⟩
        rcases List.mem_cons.1 hb with rfl | hb
        · exact hw
        · exact hnone before hb

theorem length_peel_lt (h : ∀ n, ¬ TransGen (Leads edges) n n) (hne : left ≠ [])
    (hs : left ⊆ edges) :
    (peel left).length < left.length := by
  obtain ⟨e, he, hnone⟩ := exists_first h hne hs
  rw [peel, List.length_filter_lt_length_iff_exists]
  refine ⟨e, he, fun hany => ?_⟩
  obtain ⟨before, hb, heq⟩ := List.any_eq_true.1 hany
  exact hnone before hb (of_decide_eq_true heq ▸ .refl)

theorem peelTimes_eq_nil (h : ∀ n, ¬ TransGen (Leads edges) n n) :
    ∀ {times : Nat} {left : List NumberedEdge}, left ⊆ edges → left.length ≤ times →
      peelTimes times left = [] := by
  intro times
  induction times with
  | zero => exact fun _ hlen => List.length_eq_zero_iff.1 (Nat.le_zero.1 hlen)
  | succ times ih =>
      intro left hs hlen
      refine ih (fun e he => hs (mem_peel.1 he).1) ?_
      by_cases hne : left = []
      · subst hne
        exact Nat.zero_le _
      · have hlt := length_peel_lt h hne hs
        omega

/-! ## Closed walks -/

/-- Edges each of which has one of them leading to its source are never taken
away. -/
theorem mem_peelTimes {P : NumberedEdge → Prop} (times : Nat)
    (hP : ∀ e ∈ edges, P e → ∃ before ∈ edges, P before ∧ before.target = e.source)
    {e : NumberedEdge} (he : e ∈ edges) (hp : P e) : e ∈ peelTimes times edges := by
  induction times generalizing edges with
  | zero => exact he
  | succ times ih =>
      have hstays : ∀ e ∈ edges, P e → e ∈ peel edges := fun e he hp =>
        have ⟨before, hb, _, heq⟩ := hP e he hp
        mem_peel.2 ⟨he, before, hb, heq⟩
      refine ih (fun e he hp => ?_) (hstays e he hp)
      obtain ⟨before, hb, hp, heq⟩ := hP e (mem_peel.1 he).1 hp
      exact ⟨before, hstays before hb hp, hp, heq⟩

/-- The edges that a closed walk leads to stay, its own ones among them. -/
theorem exists_mem_peelTimes {n : Nat} (h : TransGen (Leads edges) n n)
    (times : Nat) :
    ∃ e, e ∈ peelTimes times edges := by
  obtain ⟨_, ⟨e, he, rfl, -⟩, -⟩ := TransGen.head'_iff.1 h
  refine ⟨e,
    mem_peelTimes (P := fun other => TransGen (Leads edges) e.source other.source)
      times ?_ he h⟩
  intro other _ hto
  obtain ⟨_, hwalk, before, hb, rfl, heq⟩ := TransGen.tail'_iff.1 hto
  exact ⟨before, hb, h.trans_left hwalk, heq⟩

/-- The check tells whether some walk along the edges returns to where it
started. -/
theorem isCyclic_iff {d : Digraph} : d.isCyclic = true ↔
      ∃ n, TransGen (Leads d.edges) n n := by
  rw [isCyclic, Bool.not_eq_true', List.isEmpty_eq_false_iff]
  refine ⟨fun hne => ?_, fun ⟨n, h⟩ => ?_⟩
  · refine Classical.byContradiction fun hnone => ?_
    exact hne
      (peelTimes_eq_nil (not_exists.1 hnone) (List.Subset.refl _) (Nat.le_refl _))
  · obtain ⟨e, he⟩ := exists_mem_peelTimes h d.edges.length
    exact List.ne_nil_of_mem he

/-! ## Numbers and texts -/

variable {d : Digraph} {name text : String} {nodes : List String} {i : Nat}

theorem getElem?_of_lastIndex? (h : lastIndex? name nodes = some i) :
    nodes[i]? = some name := by
  induction nodes generalizing i with
  | nil => cases h
  | cons node rest ih =>
      rw [lastIndex?] at h
      split at h
      · next j hj =>
          obtain rfl := Option.some.inj h
          exact ih hj
      · split at h
        · next hname =>
            obtain rfl := Option.some.inj h
            exact congrArg some hname
        · cases h

theorem lastIndex?_append (name new : String) (nodes : List String) :
    lastIndex? name (nodes ++ [new]) = if new = name then some nodes.length
      else lastIndex? name nodes := by
  induction nodes with
  | nil => rfl
  | cons node rest ih =>
      rw [List.cons_append, lastIndex?, ih, List.length_cons, lastIndex?]
      by_cases h : new = name
      · simp only [if_pos h]
      · simp only [if_neg h]

/-- Every text keeps its number. -/
def Keeps (d d' : Digraph) : Prop :=
  ∀ text i, d.indexOf? text = some i → d'.indexOf? text = some i

theorem keeps_intern (d : Digraph) (name : String) :
    d.Keeps (d.intern name).1 ∧ (d.intern name).1.edges = d.edges ∧
      (d.intern name).1.indexOf? name = some (d.intern name).2 := by
  unfold intern
  split
  · next i hi => exact ⟨fun _ _ h => h, rfl, hi⟩
  · next hnone =>
      refine ⟨fun text i h => ?_, rfl, ?_⟩
      · rw [indexOf?, lastIndex?_append, if_neg fun heq => ?_]
        · exact h
        · rw [← heq, hnone] at h
          cases h
      · rw [indexOf?, lastIndex?_append, if_pos rfl]

/-- The numbers of an edge are those that its texts have. -/
def Numbers (d : Digraph) (n : NumberedEdge) (e : GraphEdge) : Prop :=
  d.indexOf? e.source = some n.source ∧ d.indexOf? e.target = some n.target ∧
    n.kind = e.kind

theorem numbers_addEdge {es : List GraphEdge}
    (h : List.Forall₂ d.Numbers d.edges es) (e : GraphEdge) :
    List.Forall₂ (d.addEdge e).Numbers (d.addEdge e).edges (es ++ [e]) := by
  obtain ⟨hkeeps, hedges, hsource⟩ := keeps_intern d e.source
  obtain ⟨hkeeps', hedges', htarget⟩ := keeps_intern (d.intern e.source).1 e.target
  have hall : ∀ text i, d.indexOf? text = some i →
      (d.addEdge e).indexOf? text = some i :=
    fun text i hi => hkeeps' text i (hkeeps text i hi)
  have hold : (d.addEdge e).edges = d.edges ++
        [⟨(d.intern e.source).2, ((d.intern e.source).1.intern e.target).2,
            e.kind⟩] := by
    rw [← hedges, ← hedges']
    rfl
  rw [hold]
  refine List.rel_append
    (h.imp fun n e' hn => ⟨hall _ _ hn.1, hall _ _ hn.2.1, hn.2.2⟩) (.cons ?_ .nil)
  exact ⟨hkeeps' _ _ hsource, htarget, rfl⟩

theorem numbers_foldl {es more : List GraphEdge}
    (h : List.Forall₂ d.Numbers d.edges es) :
    List.Forall₂ (more.foldl addEdge d).Numbers (more.foldl addEdge d).edges
      (es ++ more) := by
  induction more generalizing d es with
  | nil => rwa [List.append_nil]
  | cons e more ih =>
      have hrest := ih (numbers_addEdge h e)
      rwa [List.append_assoc] at hrest

end Digraph

theorem exists_of_forall₂ {α β : Type} {R : α → β → Prop} {as : List α}
    {bs : List β} (h : List.Forall₂ R as bs) {a : α} (ha : a ∈ as) :
    ∃ b ∈ bs, R a b := by
  induction h with
  | nil => cases ha
  | cons hr _ ih =>
      rcases List.mem_cons.1 ha with rfl | ha
      · exact ⟨_, List.mem_cons_self, hr⟩
      · obtain ⟨b, hb, hr⟩ := ih ha
        exact ⟨b, List.mem_cons_of_mem _ hb, hr⟩

namespace FlowGraph

/-- Some edge of the flow leads from the one text to the other. -/
def Leads (g : FlowGraph) (taps : Interceptions) (s t : String) : Prop :=
  ∃ e ∈ g.edges taps, e.source = s ∧ e.target = t

variable (g : FlowGraph) (taps : Interceptions)

/-- The numbered edges are those of the flow, in order, by the numbers of
their texts. -/
theorem numbers_toDigraph :
    List.Forall₂ (g.toDigraph taps).Numbers (g.toDigraph taps).edges
      (g.edges taps) := by
  have hempty :
      List.Forall₂ (Digraph.Numbers ⟨g.entries.map GraphEntry.name, []⟩) [] [] :=
    .nil
  exact Digraph.numbers_foldl hempty

/-- The numbered graph is cyclic if and only if some walk along the edges
returns to the text where it started. -/
theorem isCyclic_toDigraph_iff :
    (g.toDigraph taps).isCyclic = true ↔
      ∃ text, TransGen (g.Leads taps) text text := by
  have hnumbers := g.numbers_toDigraph taps
  rw [Digraph.isCyclic_iff]
  constructor
  · rintro ⟨n, hn⟩
    refine ⟨_,
      TransGen.lift (fun n => (g.toDigraph taps).nodes[n]?.getD "") ?_ _ _ hn⟩
    rintro _ _ ⟨e, he, rfl, rfl⟩
    obtain ⟨edge, hedge, hs, ht, -⟩ := exists_of_forall₂ hnumbers he
    exact ⟨edge, hedge,
      (congrArg (·.getD "") (Digraph.getElem?_of_lastIndex? hs)).symm,
      (congrArg (·.getD "") (Digraph.getElem?_of_lastIndex? ht)).symm⟩
  · rintro ⟨text, ht⟩
    refine ⟨_,
      TransGen.lift (fun text => ((g.toDigraph taps).indexOf? text).getD 0) ?_
        _ _ ht⟩
    rintro _ _ ⟨edge, hedge, rfl, rfl⟩
    obtain ⟨e, he, hs, ht, -⟩ := exists_of_forall₂ hnumbers.flip hedge
    exact ⟨e, he, (congrArg (·.getD 0) hs).symm, (congrArg (·.getD 0) ht).symm⟩

end FlowGraph

end FlowAssembly
