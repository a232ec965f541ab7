import FlowAssembly.Builder.Assemble
import FlowAssembly.Builder.Finish
import FlowAssembly.Graph.Dot
import FlowAssembly.Proofs.Outcome
import Mathlib.Algebra.Group.Nat.Even
import Mathlib.Data.List.DropRight

/-!
# Reading labels back

A reader of a drawing takes a backslash inside a label as protecting the
character behind it, and the first quote that is not protected as the end of
the label. What is written between the quotes always gives the name back when
each backslash ahead of a quote is taken away, but a backslash of the name
itself is written as it is. So the reader finds the end of a label exactly if
every run of backslashes in the name that stands ahead of a quote or at the
end of the name is of even length (`Closes`): then each two of them protect
one another, and the backslash of an escaped quote protects the quote.

A drawing reads as its names exactly if all its labels close, since nothing
else in it has quotes.
-/

namespace FlowAssembly

open Assembly

namespace Dot

/-- Reads a label from behind its opening quote, where nothing is protected
yet: what it holds, and what stands behind its closing quote. -/
def readLabel : Bool → List Char → Option (List Char × List Char)
  | _, [] => none
  | isProtected, c :: rest =>
      if c = '"' ∧ isProtected = false then some ([], rest)
      else (readLabel (!isProtected && c == '\\') rest).map fun (label, behind) =>
        (c :: label, behind)

/-- Takes the backslash ahead of each quote away. -/
def unescapeLabel : List Char → List Char
  | '\\' :: '"' :: rest => '"' :: unescapeLabel rest
  | c :: rest => c :: unescapeLabel rest
  | [] => []

/-- Every run of backslashes ahead of a quote or at the end is of even
length. -/
def Closes (name : List Char) : Prop :=
  ∀ before after, name = before ++ after → (∀ c ∈ after.head?, c = '"') →
    Even (before.rtakeWhile (· == '\\')).length

variable {name text label behind : List Char} {isProtected : Bool} {c : Char}
  {labels : List (List Char)}

/-! ## One label -/

theorem escapeLabel_quote (name : List Char) :
    escapeLabel ('"' :: name) = '\\' :: '"' :: escapeLabel name :=
  rfl

theorem escapeLabel_of_ne (hc : c ≠ '"') (name : List Char) :
    escapeLabel (c :: name) = c :: escapeLabel name := by
  rw [escapeLabel, List.flatMap_cons, if_neg hc]
  rfl

theorem head?_escapeLabel_ne (name : List Char) :
    (escapeLabel name).head? ≠ some '"' := by
  cases name with
  | nil => exact nofun
  | cons c name =>
      by_cases hc : c = '"'
      · subst hc
        exact nofun
      · rw [escapeLabel_of_ne hc]
        exact fun h => hc (Option.some.inj h)

theorem unescapeLabel_cons (h : c = '\\' → text.head? ≠ some '"') :
    unescapeLabel (c :: text) = c :: unescapeLabel text := by
  rw [unescapeLabel]
  rintro rest rfl rfl
  exact h rfl rfl

/-- Any name comes back from between its quotes. -/
theorem unescapeLabel_escapeLabel (name : List Char) :
    unescapeLabel (escapeLabel name) = name := by
  induction name with
  | nil => rfl
  | cons c name ih =>
      by_cases hc : c = '"'
      · subst hc
        rw [escapeLabel_quote, unescapeLabel, ih]
      · rw [escapeLabel_of_ne hc,
          unescapeLabel_cons fun _ => head?_escapeLabel_ne name, ih]

theorem readLabel_cons (h : ¬(c = '"' ∧ isProtected = false)) :
    readLabel isProtected (c :: text) = some (c :: label, behind) ↔
      readLabel (!isProtected && c == '\\') text = some (label, behind) := by
  rw [readLabel, if_neg h, Option.map_eq_some_iff]
  constructor
  · rintro ⟨⟨label', behind'⟩, hread, heq⟩
    obtain ⟨hlabel, rfl⟩ := Prod.mk.inj heq
    obtain ⟨-, rfl⟩ := List.cons.inj hlabel
    exact hread
  · intro hread
    exact ⟨(label, behind), hread, rfl⟩

/-- What was read is the text up to a quote. -/
theorem eq_of_readLabel (h : readLabel isProtected text = some (label, behind)) :
    text = label ++ '"' :: behind := by
  induction text generalizing isProtected label with
  | nil => cases h
  | cons c text ih =>
      by_cases hend : c = '"' ∧ isProtected = false
      · obtain ⟨rfl, rfl⟩ := hend
        obtain ⟨rfl, rfl⟩ := Prod.mk.inj (Option.some.inj h)
        rfl
      · rw [readLabel, if_neg hend] at h
        obtain ⟨⟨label', behind'⟩, hread, heq⟩ := Option.map_eq_some_iff.1 h
        obtain ⟨rfl, rfl⟩ := Prod.mk.inj heq
        rw [ih hread, List.cons_append]

/-- Whether the character behind the text is protected. -/
def protectsNext (isProtected : Bool) (text : List Char) : Bool :=
  text.foldl (fun isProtected c => !isProtected && c == '\\') isProtected

/-- A run of backslashes protects what stands behind it if it is of odd
length. -/
theorem protectsNext_iff (text : List Char) :
    protectsNext false text = true ↔
      ¬Even (text.rtakeWhile (· == '\\')).length := by
  induction text using List.reverseRecOn with
  | nil => exact iff_of_false nofun fun h => h .zero
  | append_singleton text c ih =>
      have hlast : protectsNext false (text ++ [c]) =
          (!protectsNext false text && c == '\\') :=
        List.foldl_concat _ _ _ _
      rw [hlast]
      by_cases hc : c = '\\'
      · rw [List.rtakeWhile_concat_pos _ _ _ (by simp [hc]), List.length_append,
          List.length_singleton, Nat.even_add_one, not_not, ← not_iff_not, ← ih]
        simp [hc]
      · rw [List.rtakeWhile_concat_neg _ _ _ (by simp [hc])]
        exact iff_of_false (by simp [hc]) fun h => h .zero

/-- No quote of the name is protected when a reader comes to it, and what
stands behind the name is not either. -/
def Unprotected (isProtected : Bool) (name : List Char) : Prop :=
  ∀ before after, name = before ++ after → (∀ c ∈ after.head?, c = '"') →
    protectsNext isProtected before = false

theorem unprotected_nil : Unprotected isProtected [] ↔ isProtected = false := by
  constructor
  · intro h
    exact h [] [] rfl nofun
  · rintro rfl before after hsplit -
    obtain ⟨rfl, -⟩ := List.append_eq_nil_iff.1 hsplit.symm
    rfl

theorem unprotected_cons : Unprotected isProtected (c :: name) ↔
      (c = '"' → isProtected = false) ∧
      Unprotected (!isProtected && c == '\\') name := by
  constructor
  · intro h
    refine ⟨fun hc => h [] (c :: name) rfl ?_, fun before after hsplit hafter => ?_⟩
    · rintro d hd
      rw [← hc]
      exact (Option.some.inj hd).symm
    · exact h (c :: before) after (congrArg (c :: ·) hsplit) hafter
  · rintro ⟨hfirst, hrest⟩ before after hsplit hafter
    cases before with
    | nil =>
        obtain rfl : c :: name = after := hsplit
        exact hfirst (hafter c rfl)
    | cons d before =>
        obtain ⟨rfl, rfl⟩ := List.cons.inj hsplit
        exact hrest before after rfl hafter

theorem readLabel_escapeLabel (isProtected : Bool) (name behind : List Char) :
    readLabel isProtected (escapeLabel name ++ '"' :: behind) =
      some (escapeLabel name, behind) ↔
        Unprotected isProtected name := by
  induction name generalizing isProtected with
  | nil =>
      rw [unprotected_nil]
      cases isProtected with
      | false => exact iff_of_true rfl rfl
      | true =>
          refine iff_of_false (fun h => ?_) nofun
          obtain ⟨_, -, heq⟩ := Option.map_eq_some_iff.1 h
          cases heq
  | cons c name ih =>
      rw [unprotected_cons]
      by_cases hc : c = '"'
      · subst hc
        rw [escapeLabel_quote, List.cons_append, List.cons_append,
          readLabel_cons fun h => absurd h.1 (by decide)]
        cases isProtected with
        | false =>
            -- The backslash of the escape protects the quote, and nothing
            -- protects what stands behind that.
            rw [readLabel_cons (by decide)]
            exact (ih false).trans (and_iff_right fun _ => rfl).symm
        | true =>
            -- A backslash of the name protects the one of the escape, so the
            -- quote ends the label.
            refine iff_of_false (fun h => ?_) fun h => nomatch h.1 rfl
            cases h
      · rw [escapeLabel_of_ne hc, List.cons_append, readLabel_cons fun h => hc h.1,
          ih, and_iff_right fun h => absurd h hc]

/-- A label is read as it was written exactly if its name closes. -/
theorem readLabel_iff (name behind : List Char) :
    readLabel false (escapeLabel name ++ '"' :: behind) = some (escapeLabel name,
      behind) ↔ Closes name := by
  rw [readLabel_escapeLabel]
  refine forall₄_congr fun before after _ _ => ?_
  rw [← Bool.not_eq_true, protectsNext_iff, not_not]

instance (name : List Char) : Decidable (Closes name) :=
  decidable_of_iff _ (readLabel_iff name [])

example : Closes "a\\b\\\\\"c".toList := by decide

example : ¬Closes "a\\".toList ∧ ¬Closes "a\\\"b".toList := by decide

/-! ## All labels -/

/-- Reads the labels of a drawing one after the other. -/
def readLabels : List Char → Option (List (List Char))
  | [] => some []
  | c :: rest =>
      if c = '"' then
        match _h : readLabel false rest with
        | some (label, behind) => (readLabels behind).map (label :: ·)
        | none => none
      else readLabels rest
termination_by text => text.length
decreasing_by
  · have hlength := congrArg List.length (eq_of_readLabel _h)
    rw [List.length_append, List.length_cons] at hlength
    rw [List.length_cons]
    omega
  · exact Nat.lt_succ_self _

theorem readLabels_nil : readLabels [] = some [] := by
  rw [readLabels]

theorem readLabels_of_notMem (h : '"' ∉ text) (rest : List Char) :
    readLabels (text ++ rest) = readLabels rest := by
  induction text with
  | nil => rfl
  | cons c text ih =>
      obtain ⟨hc, htext⟩ := List.ne_and_not_mem_of_not_mem_cons h
      rw [List.cons_append, readLabels, if_neg hc.symm, ih htext]

theorem readLabels_quote : readLabels ('"' :: text) = some labels ↔
      ∃ label behind rest, readLabel false text = some (label, behind) ∧
        readLabels behind = some rest ∧
        label :: rest = labels := by
  rw [readLabels, if_pos rfl]
  split
  · next label behind h =>
      rw [Option.map_eq_some_iff]
      constructor
      · rintro ⟨rest, hrest, heq⟩
        exact ⟨label, behind, rest, h, hrest, heq⟩
      · rintro ⟨label', behind', rest, h', hrest, heq⟩
        obtain ⟨rfl, rfl⟩ := Prod.mk.inj (Option.some.inj (h.symm.trans h'))
        exact ⟨rest, hrest, heq⟩
  · next h =>
      refine iff_of_false nofun ?_
      rintro ⟨label, behind, rest, h', -⟩
      rw [h] at h'
      cases h'

/-- A label reads as its name if the name closes, and otherwise the labels
read from it on are not the names. -/
theorem readLabels_label (name behind : List Char) (labels : List (List Char)) :
    readLabels ('"' :: (escapeLabel name ++ '"' :: behind)) =
      some (escapeLabel name :: labels) ↔
        Closes name ∧ readLabels behind = some labels := by
  rw [readLabels_quote]
  constructor
  · rintro ⟨label, behind', rest, hread, hrest, heq⟩
    obtain ⟨rfl, rfl⟩ := List.cons.inj heq
    obtain ⟨-, rfl⟩ :=
      List.cons.inj (List.append_cancel_left (eq_of_readLabel hread))
    exact ⟨(readLabel_iff name behind).1 hread, hrest⟩
  · rintro ⟨hcloses, hrest⟩
    exact ⟨_, behind, labels, (readLabel_iff name behind).2 hcloses, hrest, rfl⟩

/-! ## Lines -/

theorem notMem_toString (n : Nat) : '"' ∉ (toString n).toList := by
  have hdigits : (toString n).toList = Nat.toDigits 10 n := Nat.toList_repr
  rw [hdigits]
  intro h
  exact absurd (Nat.isDigit_of_mem_toDigits (by decide) (by decide) h) (by decide)

theorem notMem_nodeStyle (category : Option Category) :
    '"' ∉ (nodeStyle category).toList := by
  rcases category with _ | (_ | _ | _) <;> decide

theorem notMem_edgeLine (e : NumberedEdge) : '"' ∉ (edgeLine e).toList := by
  have hstyle : '"' ∉ (edgeStyle e.kind).toList := by
    cases e.kind <;> decide
  unfold edgeLine
  simp only [String.toList_append, List.mem_append, not_or]
  exact ⟨⟨⟨⟨⟨by decide, notMem_toString _⟩, by decide⟩, notMem_toString _⟩, hstyle⟩,
    by decide⟩

/-- A line of a node up to its label. -/
def aheadOfLabel (index : Nat) : List Char :=
  "    ".toList ++ (toString index).toList ++ " [ label=".toList

/-- A line of a node from behind its label on. -/
def behindLabel (category : Option Category) : List Char :=
  ", ".toList ++ (nodeStyle category).toList ++ " ];\n".toList

theorem toList_nodeLine (index : Nat) (name : String) (category : Option Category) :
    (nodeLine index name category).toList = aheadOfLabel index ++ '"' ::
      (escapeLabel name.toList ++ '"' :: behindLabel category) := by
  have hahead : " [ label=\"".toList = " [ label=".toList ++ ['"'] := rfl
  have hbehind : "\", ".toList = '"' :: ", ".toList := rfl
  have hname : (String.ofList (escapeLabel name.toList)).toList =
      escapeLabel name.toList :=
    String.toList_ofList
  unfold nodeLine aheadOfLabel behindLabel
  rw [String.toList_append, String.toList_append, String.toList_append,
    String.toList_append, String.toList_append, String.toList_append, hname,
    hahead, hbehind]
  simp only [List.append_assoc, List.cons_append, List.nil_append]

theorem notMem_aheadOfLabel (index : Nat) : '"' ∉ aheadOfLabel index := by
  unfold aheadOfLabel
  simp only [List.mem_append, not_or]
  exact ⟨⟨by decide, notMem_toString index⟩, by decide⟩

theorem notMem_behindLabel (category : Option Category) :
    '"' ∉ behindLabel category := by
  unfold behindLabel
  simp only [List.mem_append, not_or]
  exact ⟨⟨by decide, notMem_nodeStyle category⟩, by decide⟩

theorem readLabels_nodeLine (index : Nat) (name : String)
    (category : Option Category) (rest : List Char) (labels : List (List Char)) :
    readLabels ((nodeLine index name category).toList ++ rest) =
      some (escapeLabel name.toList :: labels) ↔
        Closes name.toList ∧ readLabels rest = some labels := by
  rw [toList_nodeLine, List.append_assoc,
    readLabels_of_notMem (notMem_aheadOfLabel index), List.cons_append,
    List.append_assoc, List.cons_append, readLabels_label,
    readLabels_of_notMem (notMem_behindLabel category)]

end Dot

namespace FlowGraph

/-- The lines of nodes, which are numbered from the given number on. -/
def nodeLines (g : FlowGraph) (names : List String) (first : Nat) : List Char :=
  (names.zipIdx first).flatMap fun (name, index) =>
    (Dot.nodeLine index name (g.categoryOf? name)).toList

/-- The head of a drawing. -/
def dotHead : List Char :=
  "digraph ".toList ++ '{' :: "\n    rankdir=LR;\n".toList

/-- A drawing behind its nodes. -/
def dotTail (g : FlowGraph) (taps : Interceptions) : List Char :=
  "\n".toList ++ ((g.toDigraph taps).edges.flatMap fun e =>
    (Dot.edgeLine e).toList) ++ '}' :: "\n".toList

theorem toList_toDot (g : FlowGraph) (taps : Interceptions) :
    (g.toDot taps).toList = dotHead ++
      (g.nodeLines (g.toDigraph taps).nodes 0 ++ g.dotTail taps) := by
  have hnodes :
      (String.join ((g.toDigraph taps).nodes.zipIdx.map fun (name, index) =>
        Dot.nodeLine index name (g.categoryOf? name))).toList =
          g.nodeLines (g.toDigraph taps).nodes 0 := by
    rw [String.toList_join, List.flatMap_map]
    rfl
  have hedges : (String.join ((g.toDigraph taps).edges.map Dot.edgeLine)).toList =
      (g.toDigraph taps).edges.flatMap fun e => (Dot.edgeLine e).toList := by
    rw [String.toList_join, List.flatMap_map]
  unfold toDot dotHead dotTail Dot.braced
  simp only [String.toList_append, String.toList_singleton, hnodes, hedges,
    List.append_assoc, List.cons_append, List.nil_append]

theorem nodeLines_cons (g : FlowGraph) (name : String) (names : List String)
    (first : Nat) :
    g.nodeLines (name :: names) first =
      (Dot.nodeLine first name (g.categoryOf? name)).toList ++
      g.nodeLines names (first + 1) := by
  rw [nodeLines, List.zipIdx_cons, List.flatMap_cons]
  rfl

theorem nodeLines_append (g : FlowGraph) (before after : List String) :
    g.nodeLines (before ++ after) 0 = g.nodeLines before 0 ++
      g.nodeLines after before.length := by
  rw [nodeLines, List.zipIdx_append, List.flatMap_append, Nat.zero_add]
  rfl

/-- A drawing at the label of a node. -/
theorem exists_label {taps : Interceptions} {g : FlowGraph}
    {before after : List String} {name : String}
    (hnodes : (g.toDigraph taps).nodes = before ++ name :: after) :
    ∃ behind, (g.toDot taps).toList = dotHead ++ g.nodeLines before 0 ++
        Dot.aheadOfLabel before.length ++ '"' ::
        (Dot.escapeLabel name.toList ++ '"' :: behind) := by
  refine ⟨Dot.behindLabel (g.categoryOf? name) ++
      (g.nodeLines after (before.length + 1) ++ g.dotTail taps), ?_⟩
  rw [toList_toDot, hnodes, nodeLines_append, nodeLines_cons, Dot.toList_nodeLine]
  simp only [List.append_assoc, List.cons_append]

theorem notMem_dotTail (g : FlowGraph) (taps : Interceptions) :
    '"' ∉ g.dotTail taps := by
  have hedges : '"' ∉ (g.toDigraph taps).edges.flatMap fun e =>
      (Dot.edgeLine e).toList := by
    rw [List.mem_flatMap]
    rintro ⟨e, -, hmem⟩
    exact Dot.notMem_edgeLine e hmem
  unfold dotTail
  simp only [List.mem_append, not_or]
  exact ⟨⟨by decide, hedges⟩, by decide⟩

theorem readLabels_nodeLines (g : FlowGraph) (taps : Interceptions)
    (names : List String) (first : Nat) :
    Dot.readLabels (g.nodeLines names first ++ g.dotTail taps) =
      some (names.map fun name => Dot.escapeLabel name.toList) ↔
        ∀ name ∈ names, Dot.Closes name.toList := by
  induction names generalizing first with
  | nil =>
      refine iff_of_true ?_ fun _ h => absurd h List.not_mem_nil
      have htail := Dot.readLabels_of_notMem (g.notMem_dotTail taps) []
      rw [List.append_nil] at htail
      exact htail.trans Dot.readLabels_nil
  | cons name names ih =>
      rw [nodeLines_cons, List.append_assoc, List.map_cons, Dot.readLabels_nodeLine,
        ih, List.forall_mem_cons]

theorem readLabels_toDot (g : FlowGraph) (taps : Interceptions) :
    Dot.readLabels (g.toDot taps).toList =
      some ((g.toDigraph taps).nodes.map fun name => Dot.escapeLabel name.toList) ↔
        ∀ name ∈ (g.toDigraph taps).nodes, Dot.Closes name.toList := by
  have hhead : '"' ∉ dotHead := by decide
  rw [toList_toDot, Dot.readLabels_of_notMem hhead, readLabels_nodeLines]

end FlowGraph

/-- A drawing holds the name of every node between two quotes, with the quotes
in it escaped, and the name comes back when they are unescaped. The second
quote is where a reader finds the end of the label exactly if the name closes,
and the labels that a reader finds in the whole drawing are those of the nodes
exactly if all names close. -/
theorem labels_close_iff (g : FlowGraph) (taps : Interceptions) :
    (∀ before name after, (g.toDigraph taps).nodes = before ++ name :: after →
      ∃ behind,
        (g.toDot taps).toList = FlowGraph.dotHead ++ g.nodeLines before 0 ++
          Dot.aheadOfLabel before.length ++ '"' ::
          (Dot.escapeLabel name.toList ++ '"' :: behind) ∧
        (Dot.readLabel false (Dot.escapeLabel name.toList ++ '"' :: behind) =
          some (Dot.escapeLabel name.toList, behind) ↔ Dot.Closes name.toList) ∧
        Dot.unescapeLabel (Dot.escapeLabel name.toList) = name.toList) ∧
    (Dot.readLabels (g.toDot taps).toList =
        some ((g.toDigraph taps).nodes.map fun name =>
          Dot.escapeLabel name.toList) ↔
      ∀ name ∈ (g.toDigraph taps).nodes, Dot.Closes name.toList) := by
  refine ⟨fun before name after hnodes => ?_, g.readLabels_toDot taps⟩
  obtain ⟨behind, hdrawing⟩ := FlowGraph.exists_label hnodes
  exact ⟨behind, hdrawing, Dot.readLabel_iff _ _, Dot.unescapeLabel_escapeLabel _⟩

/-- A flow from a channel of the caller's to a bridge. -/
def bridgedOnce (id : String) : Assembly FlowGraph := do
  let b ← Builder.fromChannel ⟨⟨5⟩, some id, .direct, [], false, none⟩
  let b ← assembleSteps b [.withId "f", .handle .bridge]
  b.finish

/-- The caller's channel has quotes and a pair of backslashes in its id, and
the drawing reads as the names. -/
theorem labels_close_iff_quoted :
    ∃ g w, Yields (bridgedOnce "say \"in\"\\\\") (.start 10 1) g w ∧
      (g.toDigraph w.interceptors).nodes = ["say \"in\"\\\\", "f.bridge#0"] ∧
      (∃ behind,
        (g.toDot w.interceptors).toList = FlowGraph.dotHead ++
          Dot.aheadOfLabel 0 ++ '"' ::
          ("say \\\"in\\\"\\\\".toList ++ '"' :: behind) ∧
        Dot.readLabel false ("say \\\"in\\\"\\\\".toList ++ '"' :: behind) =
          some ("say \\\"in\\\"\\\\".toList, behind)) ∧
      Dot.readLabels (g.toDot w.interceptors).toList =
        some ["say \\\"in\\\"\\\\".toList, "f.bridge#0".toList] := by
  obtain ⟨g, w, hg, hnodes⟩ := exists_yields_in (m := bridgedOnce "say \"in\"\\\\")
    (f := fun g w => (g.toDigraph w.interceptors).nodes) (w := .start 10 1)
    (y := ["say \"in\"\\\\", "f.bridge#0"]) (by decide +kernel)
  obtain ⟨hlabel, hall⟩ := labels_close_iff g w.interceptors
  rw [hnodes] at hall hlabel
  obtain ⟨behind, hdrawing, hread, -⟩ := hlabel [] _ _ rfl
  exact ⟨g, w, hg, hnodes, ⟨behind, hdrawing, hread.2 (by decide)⟩,
    hall.2 (by decide)⟩

/-- The caller's channel has an id that ends in a backslash. A reader does not
find the end of its label where it was written, and the labels that it finds
in the drawing are not the names. -/
theorem label_left_open :
    ∃ g w, Yields (bridgedOnce "a\\") (.start 10 1) g w ∧
      (g.toDigraph w.interceptors).nodes = ["a\\", "f.bridge#0"] ∧
      (∃ behind,
        (g.toDot w.interceptors).toList = FlowGraph.dotHead ++
          Dot.aheadOfLabel 0 ++ '"' :: ("a\\".toList ++ '"' :: behind) ∧
        Dot.readLabel false ("a\\".toList ++ '"' :: behind) ≠
          some ("a\\".toList, behind)) ∧
      Dot.readLabels (g.toDot w.interceptors).toList ≠
        some ["a\\".toList, "f.bridge#0".toList] := by
  obtain ⟨g, w, hg, hnodes⟩ := exists_yields_in (m := bridgedOnce "a\\")
    (f := fun g w => (g.toDigraph w.interceptors).nodes) (w := .start 10 1)
    (y := ["a\\", "f.bridge#0"]) (by decide +kernel)
  obtain ⟨behind, hdrawing⟩ :=
    FlowGraph.exists_label (hnodes.trans (List.nil_append _).symm)
  have hopen : ¬Dot.Closes "a\\".toList := by decide
  have hlost := mt (Dot.readLabel_iff _ behind).1 hopen
  refine ⟨g, w, hg, hnodes, ⟨behind, hdrawing, hlost⟩, fun hread => ?_⟩
  have hall := g.readLabels_toDot w.interceptors
  rw [hnodes] at hall
  exact hopen (hall.1 hread _ List.mem_cons_self)

end FlowAssembly
