import FlowAssembly.Proofs.Accounts

/-!
# Names of entries

A finished flow names each of its entries: by the name that the entry was
registered under, or after the flow, its type and a number. The number counts
the entries of the type that precede the entry and have no name of their own
either, so of two entries of one type the later one has the greater number.

Types are texts of any kind, with dots, hash signs and digits in them. A
made-up name is read from its end all the same: a number has no hash sign, so
the last hash sign of the name divides the type from the number.
-/

namespace FlowAssembly

open Assembly

variable {flowId : String} {seen : List String} {entries : List Entry}
  {e : Entry} {i j : Nat}

/-- How many entries of a type have no name of their own. -/
def unnamed (type : String) (entries : List Entry) : Nat :=
  entries.countP fun e => e.name.isNone && e.component.componentType == type

/-- The name that is made up for the entry of a type with the given number. -/
def generatedName (flowId type : String) (number : Nat) : String :=
  flowId ++ "." ++ type ++ "#" ++ toString number

/-! ## Made-up names are distinct -/

theorem hash_not_mem_digits (n : Nat) : '#' ∉ Nat.toDigits 10 n := by
  intro hmem
  have hdigit := Nat.isDigit_of_mem_toDigits (by decide) (by decide) hmem
  revert hdigit
  decide

/-- The last hash sign divides a text in one way. -/
theorem eq_of_append_hash {s t ds es : List Char} (hds : '#' ∉ ds) (hes : '#' ∉ es)
    (h : s ++ '#' :: ds = t ++ '#' :: es) : s = t ∧ ds = es := by
  rcases List.append_eq_append_iff.1 h with ⟨more, rfl, hrest⟩ | ⟨more, rfl, hrest⟩
  · cases more with
    | nil => simpa using hrest
    | cons c more =>
        obtain ⟨-, rfl⟩ := List.cons.inj hrest
        exact absurd (List.mem_append_right _ List.mem_cons_self) hds
  · cases more with
    | nil => simpa [eq_comm] using hrest
    | cons c more =>
        obtain ⟨-, rfl⟩ := List.cons.inj hrest
        exact absurd (List.mem_append_right _ List.mem_cons_self) hes

/-- A made-up name tells the type and the number. -/
theorem generatedName_inj {type type' : String} {n n' : Nat}
    (h : generatedName flowId type n = generatedName flowId type' n') :
    type = type' ∧ n = n' := by
  have hchars := congrArg String.toList h
  have hhash : "#".toList = ['#'] := rfl
  simp only [generatedName, String.toList_append, hhash,
    Nat.toString_eq_ofList_toDigits, String.toList_ofList, List.append_assoc,
    List.singleton_append] at hchars
  have hchars := List.append_cancel_left (List.append_cancel_left hchars)
  obtain ⟨htype, hdigits⟩ :=
    eq_of_append_hash (hash_not_mem_digits n) (hash_not_mem_digits n') hchars
  refine ⟨String.toList_inj.1 htype, ?_⟩
  rw [← Nat.ofDigitChars_toDigits (b := 10) (n := n) (by decide) (by decide),
    hdigits, Nat.ofDigitChars_toDigits (by decide) (by decide)]

/-! ## One entry after the other -/

theorem unnamed_cons (type : String) (e : Entry) (entries : List Entry) :
    unnamed type (e :: entries) = unnamed type entries + if e.name = none ∧
    e.component.componentType = type then 1 else 0 := by
  rw [unnamed, List.countP_cons]
  simp [unnamed]

theorem unnamed_concat (type : String) (before : List Entry) (e : Entry) :
    unnamed type (before ++ [e]) = unnamed type before + if e.name = none ∧
    e.component.componentType = type then 1 else 0 := by
  rw [unnamed, List.countP_append]
  exact congrArg (unnamed type before + ·)
    ((unnamed_cons type e []).trans (Nat.zero_add _))

/-- Of two entries of one type without names the later one has the greater
number. -/
theorem unnamed_take_lt (hij : i < j) (he : entries[i]? = some e)
    (hnone : e.name = none) :
    unnamed e.component.componentType (entries.take i) <
      unnamed e.component.componentType (entries.take j) := by
  induction entries generalizing i j with
  | nil => cases he
  | cons x entries ih =>
      obtain ⟨j, rfl⟩ :=
        Nat.exists_eq_add_one_of_ne_zero (Nat.ne_of_gt (Nat.zero_lt_of_lt hij))
      cases i with
      | zero =>
          obtain rfl := Option.some.inj he
          rw [List.take_succ_cons, unnamed_cons, if_pos ⟨hnone, rfl⟩]
          exact Nat.zero_lt_succ _
      | succ i =>
          rw [List.take_succ_cons, List.take_succ_cons, unnamed_cons, unnamed_cons]
          exact Nat.add_lt_add_right (ih (Nat.lt_of_succ_lt_succ hij) he) _

/-- What an entry becomes in a finished flow, given the entries that precede
it. -/
structure Entry.NamedAs (e : Entry) (flowId : String) (before : List Entry)
    (g : GraphEntry) : Prop where
  component : g.component = e.component
  explicit : ∀ name, e.name = some name → g.name = name ∧ g.generated = false
  generated : e.name = none → g.generated = true ∧
    g.name = generatedName flowId e.component.componentType
      (unnamed e.component.componentType before)

/-- Entries are named in order. The numbers go on from the types that were
seen, which are those of the entries without names that came before. -/
theorem nameEntries_getElem? {before : List Entry}
    (hseen : ∀ type, seen.count type = unnamed type before)
    (he : entries[i]? = some e) :
    ∃ g, (nameEntries flowId seen entries)[i]? = some g ∧
      e.NamedAs flowId (before ++ entries.take i) g := by
  induction entries generalizing i seen before with
  | nil => cases he
  | cons x entries ih =>
      rw [nameEntries]
      split
      · next name hname =>
          cases i with
          | zero =>
              obtain rfl := Option.some.inj he
              refine ⟨_, rfl, rfl, fun name' hname' => ?_, fun hnone => ?_⟩
              · rw [hname] at hname'
                exact ⟨Option.some.inj hname', rfl⟩
              · rw [hname] at hnone
                cases hnone
          | succ i =>
              have hcount :
                  ∀ type, seen.count type = unnamed type (before ++ [x]) :=
                fun type => by
                  rw [unnamed_concat, hseen, if_neg (by simp [hname])]
                  rfl
              obtain ⟨g, hg, hnamed⟩ := ih hcount he
              rw [List.append_assoc] at hnamed
              exact ⟨g, hg, hnamed⟩
      · next hnone =>
          cases i with
          | zero =>
              obtain rfl := Option.some.inj he
              refine ⟨_, rfl, rfl, fun name hname => ?_, fun _ => ⟨rfl, ?_⟩⟩
              · rw [hnone] at hname
                cases hname
              · dsimp only
                rw [hseen, List.take_zero, List.append_nil]
                rfl
          | succ i =>
              have hcount : ∀ type,
                  (x.component.componentType :: seen).count type =
                  unnamed type (before ++ [x]) :=
                fun type => by
                  rw [unnamed_concat, List.count_cons, hseen]
                  simp [hnone]
              obtain ⟨g, hg, hnamed⟩ := ih hcount he
              rw [List.append_assoc] at hnamed
              exact ⟨g, hg, hnamed⟩

theorem length_nameEntries (flowId : String) (seen : List String)
    (entries : List Entry) :
    (nameEntries flowId seen entries).length = entries.length := by
  induction entries generalizing seen with
  | nil => rfl
  | cons e entries ih =>
      rw [nameEntries]
      split
      · exact congrArg Nat.succ (ih _)
      · exact congrArg Nat.succ (ih _)

namespace Builder

variable {b : Builder}

theorem namedAs_of_getElem? (he : b.registry.entries[i]? = some e) :
    ∃ g, b.toGraph.entries[i]? = some g ∧
      e.NamedAs b.flowId (b.registry.entries.take i) g :=
  have hnone : ∀ type, ([] : List String).count type = unnamed type [] :=
    fun _ => rfl
  nameEntries_getElem? hnone he

theorem exists_entry_of_toGraph {g : GraphEntry}
    (hg : b.toGraph.entries[i]? = some g) :
    ∃ e, b.registry.entries[i]? = some e ∧
      e.NamedAs b.flowId (b.registry.entries.take i) g := by
  have hlt : i < b.registry.entries.length := by
    rw [← length_nameEntries b.flowId [] b.registry.entries]
    exact (List.getElem?_eq_some_iff.1 hg).1
  obtain ⟨g', hg', hnamed⟩ := b.namedAs_of_getElem? (List.getElem?_eq_getElem hlt)
  rw [hg] at hg'
  cases hg'
  exact ⟨_, List.getElem?_eq_getElem hlt, hnamed⟩

/-- Two entries with made-up names have different names. -/
theorem generated_ne {g g' : GraphEntry} (hij : i < j)
    (hg : b.toGraph.entries[i]? = some g) (hg' : b.toGraph.entries[j]? = some g')
    (hgen : g.generated = true) (hgen' : g'.generated = true) :
    g.name ≠ g'.name := by
  obtain ⟨e, he, hnamed⟩ := exists_entry_of_toGraph hg
  obtain ⟨e', he', hnamed'⟩ := exists_entry_of_toGraph hg'
  have hnone : ∀ {e : Entry} {before : List Entry} {g : GraphEntry},
      e.NamedAs b.flowId before g →
      g.generated = true → e.name = none := by
    intro e before g hnamed hgen
    refine Option.eq_none_iff_forall_not_mem.2 fun name hname => ?_
    rw [(hnamed.explicit name hname).2] at hgen
    cases hgen
  intro heq
  rw [(hnamed.generated (hnone hnamed hgen)).2,
    (hnamed'.generated (hnone hnamed' hgen')).2] at heq
  obtain ⟨htype, hnumber⟩ := generatedName_inj heq
  have hlt := unnamed_take_lt hij he (hnone hnamed hgen)
  rw [hnumber, htype] at hlt
  exact Nat.lt_irrefl _ hlt

end Builder

/-- A finished flow names its entries one for one and in order: an entry with
a name keeps it, and another is named after the flow, its type and the number
of entries of the type without a name that precede it. No two made-up names
are the same, whatever the flow and the types are called. What `finish`
answers is a flow that was closed and named like this. -/
theorem entries_named (b : Builder) :
    b.toGraph.entries.length = b.registry.entries.length ∧
    (∀ (i : Nat) (e : Entry), b.registry.entries[i]? = some e →
      ∃ g, b.toGraph.entries[i]? = some g ∧
        e.NamedAs b.flowId (b.registry.entries.take i) g) ∧
    (∀ (i j : Nat) (g g' : GraphEntry), i ≠ j → b.toGraph.entries[i]? = some g →
      b.toGraph.entries[j]? = some g' → g.generated = true → g'.generated = true →
      g.name ≠ g'.name) ∧
    ∀ w g w', Yields b.finish w g w' →
      ∃ closed, Yields b.closeImplicit w closed w' ∧
        closed.flushDeferred.flowId = b.flowId ∧
        g = closed.flushDeferred.toGraph := by
  refine ⟨length_nameEntries _ _ _, fun i e he => b.namedAs_of_getElem? he, ?_, ?_⟩
  · intro i j g g' hne hg hg' hgen hgen'
    rcases Nat.lt_or_gt_of_ne hne with hlt | hlt
    · exact Builder.generated_ne hlt hg hg' hgen hgen'
    · exact (Builder.generated_ne hlt hg' hg hgen' hgen).symm
  · intro w g w' hy
    obtain ⟨hflow, -⟩ := Builder.count_finish_le (h := ⟨0⟩) hy
    obtain ⟨closed, hclose, -, rfl⟩ := Builder.of_yields_finish hy
    exact ⟨closed, hclose, hflow, rfl⟩

end FlowAssembly
