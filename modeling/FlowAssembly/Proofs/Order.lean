import FlowAssembly.Proofs.Drawing

/-!
# The two rules on the order of a flow

What a finished flow is checked for, said of its components: channels stand
apart, and every endpoint stands behind the channel that it reads. Marks tell
whether that is so, and so does the sketch of a builder, up to the flows that
the builder holds back.
-/

namespace FlowAssembly

/-- No two channels stand in a row. -/
def Apart (components : List Component) : Prop :=
  ∀ before a b after, components ≠ before ++ .channel a :: .channel b :: after

/-- Every endpoint that reads a channel stands behind it. -/
def Ordered (components : List Component) : Prop :=
  ∀ before e after c, components = before ++ .endpoint e :: after →
    e.input = .channel c → c.key ∈ before.map Component.key

theorem apart_cons_cons {x y : Component} {rest : List Component} :
    Apart (x :: y :: rest) ↔ (x.mark.isChannel && y.mark.isChannel) = false ∧
      Apart (y :: rest) := by
  constructor
  · intro h
    refine ⟨?_, fun before a b after heq => h (x :: before) a b after
      (by rw [heq]; rfl)⟩
    cases x with
    | endpoint e | source s => rfl
    | channel a =>
        cases y with
        | endpoint e | source s => rfl
        | channel b => exact absurd rfl (h [] a b rest)
  · rintro ⟨hxy, h⟩ before a b after heq
    cases before with
    | nil =>
        rw [List.nil_append, List.cons.injEq, List.cons.injEq] at heq
        obtain ⟨rfl, rfl, -⟩ := heq
        cases hxy
    | cons z before =>
        rw [List.cons_append, List.cons.injEq] at heq
        exact h before a b after heq.2

theorem apart_iff {components : List Component} :
    Apart components ↔ Mark.crowded (components.map Component.mark) = false := by
  induction components with
  | nil =>
      refine ⟨fun _ => rfl, fun _ before a b after heq => ?_⟩
      cases before <;> cases heq
  | cons x rest ih =>
      cases rest with
      | nil =>
          refine ⟨fun _ => by simp [Mark.crowded, Mark.opens],
            fun _ before a b after heq => ?_⟩
          have hlength := congrArg List.length heq
          simp only [List.length_cons, List.length_append, List.length_nil]
            at hlength
          omega
      | cons y rest =>
          rw [apart_cons_cons, ih]
          exact Bool.or_eq_false_iff.symm

theorem ordered_from {seen : List ComponentKey} {components : List Component} :
    (∀ before e after c, components = before ++ .endpoint e :: after →
      e.input = .channel c → c.key ∈ before.map Component.key ∨ c.key ∈ seen) ↔
        Mark.misplacedFrom seen (components.map Component.mark) = false := by
  induction components generalizing seen with
  | nil =>
      refine ⟨fun _ => rfl, fun _ before e after c heq => ?_⟩
      cases before <;> cases heq
  | cons x rest ih =>
      rw [List.map_cons, Mark.misplacedFrom, Component.key_mark,
        Bool.or_eq_false_iff, ← ih]
      constructor
      · intro h
        refine ⟨?_, fun before e after c heq hi => ?_⟩
        · cases x with
          | channel _ | source _ => rfl
          | endpoint e =>
              cases hi : e.input with
              | named name =>
                  simp [Component.mark, hi, Target.channel?, Mark.reads?]
              | channel c =>
                  simpa [Component.mark, hi, Target.channel?, Mark.reads?]
                    using h [] e rest c rfl hi
        · have hx := h (x :: before) e after c (by rw [heq]; rfl) hi
          rw [List.map_cons, List.mem_cons] at hx
          rw [List.mem_cons]
          rcases hx with (hx | hx) | hx
          · exact .inr (.inl hx)
          · exact .inl hx
          · exact .inr (.inr hx)
      · rintro ⟨hx, hrest⟩ before e after c heq hi
        cases before with
        | nil =>
            rw [List.nil_append, List.cons.injEq] at heq
            obtain ⟨rfl, -⟩ := heq
            exact .inr
              (by simpa [Component.mark, hi, Target.channel?, Mark.reads?] using hx)
        | cons y before =>
            rw [List.cons_append, List.cons.injEq] at heq
            obtain ⟨rfl, heq⟩ := heq
            have hc := hrest before e after c heq hi
            rw [List.mem_cons] at hc
            rw [List.map_cons, List.mem_cons]
            rcases hc with hc | hc | hc
            · exact .inl (.inr hc)
            · exact .inl (.inl hc)
            · exact .inr hc

theorem ordered_iff {components : List Component} :
    Ordered components ↔
      Mark.misplaced (components.map Component.mark) = false := by
  rw [Mark.misplaced, ← ordered_from]
  simp only [Ordered, List.not_mem_nil, or_false]

instance (components : List Component) : Decidable (Apart components) :=
  decidable_of_iff _ apart_iff.symm

instance (components : List Component) : Decidable (Ordered components) :=
  decidable_of_iff _ ordered_iff.symm

namespace Sketch

variable {s : Sketch}

/-- The outlook behind the channel of the tip tells whether the registry is
crowded, or a flow that is held back. -/
theorem Sound.crowded_outlook (hs : s.Sound) :
    s.outlook.close.crowded =
      (Mark.crowded s.marks || s.taps.any Mark.crowded) := by
  rw [marks, Mark.crowded_append hs.base.quiet]
  unfold outlook Outlook.close
  cases s.tip with
  | vacant | bare k =>
      simp [Tip.marks, Tip.behind, Tip.landing, Landing.isSqueezed,
        Mark.crowded, Mark.opens]
  | shared k l =>
      simp only [Tip.marks, Tip.behind, Tip.landing, Landing.isSqueezed,
        Mark.crowded, Mark.isChannel, Bool.true_and]
      ac_rfl

theorem Sound.misplaced_outlook (hs : s.Sound) :
    s.outlook.misplaced =
      (Mark.misplaced s.marks || s.taps.any Mark.misplaced) := by
  have hapart : ∀ k ∈ Mark.reads s.tip.marks, k ∉ Mark.keys s.base := by
    cases ht : s.tip with
    | vacant | bare k => exact nofun
    | shared k l =>
        intro j hj hbase
        have hn := hs.distinct
        rw [keys, marks, ht, Mark.keys_append, Mark.keys_append] at hn
        have hin := (hs.whole_shared ht).closed j hj
        exact (List.nodup_append.1 (List.nodup_append.1 hn).1).2.2 j hbase j hin rfl
  rw [marks, Mark.misplaced_append hapart]
  rfl

end Sketch

namespace Builder

variable {b : Builder} {s : Sketch}

/-- What is told of a builder is true of its registry and of the flows that it
holds back. -/
theorem Drawn.apart_iff (hd : b.Drawn s) :
    s.outlook.close.crowded = false ↔
      Apart b.registry.components ∧
      ∀ r ∈ b.cursor.deferred, Apart r.components := by
  rw [hd.sound.crowded_outlook, Bool.or_eq_false_iff, ← hd.marks, ← hd.taps,
    List.any_map, List.any_eq_false]
  simp only [FlowAssembly.apart_iff, Function.comp_apply, Bool.not_eq_true]
  rfl

theorem Drawn.ordered_iff (hd : b.Drawn s) :
    s.outlook.misplaced = false ↔
      Ordered b.registry.components ∧
      ∀ r ∈ b.cursor.deferred, Ordered r.components := by
  rw [hd.sound.misplaced_outlook, Bool.or_eq_false_iff, ← hd.marks, ← hd.taps,
    List.any_map, List.any_eq_false]
  simp only [FlowAssembly.ordered_iff, Function.comp_apply, Bool.not_eq_true]
  rfl

theorem Drawn.apart_iff_of_flushed (hd : b.Drawn s) (h : s.taps = []) :
    Apart b.registry.components ↔ s.outlook.close.crowded = false := by
  rw [hd.sound.crowded_outlook, h, List.any_nil, Bool.or_false, ← hd.marks]
  exact FlowAssembly.apart_iff

theorem Drawn.ordered_iff_of_flushed (hd : b.Drawn s) (h : s.taps = []) :
    Ordered b.registry.components ↔ s.outlook.misplaced = false := by
  rw [hd.sound.misplaced_outlook, h, List.any_nil, Bool.or_false, ← hd.marks]
  exact FlowAssembly.ordered_iff

end Builder

end FlowAssembly
