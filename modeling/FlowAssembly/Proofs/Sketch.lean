import FlowAssembly.Proofs.Marks
import FlowAssembly.Proofs.Outlook

/-!
# Sketches of flows

A sketch is the order of a flow under assembly, cut where the next step goes
to work: the base, which is done with; the tip, which is the channel that the
flow stands on with the subscribers behind it; and the flows held back by
taps. The outlook of a sketch is computed from its marks.

Everything that a builder does to its order comes down to one operation,
reading off the tip. An endpoint is put behind it (`wired`); side flows go
ahead of the channel if nothing stands behind that yet, and held-back flows go
behind the endpoint. What this does to the outlook is told by the outlook
alone, as long as no two parts of the sketch share a key, and the parts that
are added are whole (`Mark.Whole`).
-/

namespace FlowAssembly

namespace Mark

/-- Nothing in the list reads a channel that is not in it, and it does not end
on a channel. -/
structure Whole (l : List Mark) : Prop where
  quiet : Quiet l
  closed : ∀ k ∈ reads l, k ∈ keys l

theorem whole_nil : Whole [] :=
  ⟨quiet_nil, fun _ hk => by cases hk⟩

theorem Whole.append {l₁ l₂ : List Mark} (h₁ : Whole l₁) (h₂ : Whole l₂) :
    Whole (l₁ ++ l₂) := by
  refine ⟨h₁.quiet.append h₂.quiet, fun k hk => ?_⟩
  rw [reads_append, List.mem_append] at hk
  rw [keys_append, List.mem_append]
  exact hk.imp (h₁.closed k) (h₂.closed k)

theorem whole_flatten {ls : List (List Mark)} (h : ∀ l ∈ ls, Whole l) :
    Whole ls.flatten := by
  induction ls with
  | nil => exact whole_nil
  | cons l ls ih =>
      rw [List.flatten_cons]
      exact (h l List.mem_cons_self).append
        (ih fun l' hl => h l' (List.mem_cons_of_mem l hl))

/-- A whole list that begins with a channel: a flow that starts at a channel
of its own. -/
structure Block (l : List Mark) : Prop where
  whole : Whole l
  opens : opens l = true

theorem opens_flatten {ls : List (List Mark)} (h : ∀ l ∈ ls, Block l) :
    Mark.opens ls.flatten = !ls.isEmpty := by
  match ls with
  | [] => rfl
  | l :: ls =>
      have hl := (h l List.mem_cons_self).opens
      rw [List.flatten_cons, opens_append, if_neg, hl]
      · rfl
      · rintro rfl
        cases hl

/-- A whole part is misplaced on its own or not at all, if it shares no key
with what stands before it. -/
theorem Whole.misplaced_append {l₁ l₂ : List Mark} (h : Whole l₂)
    (hn : (keys (l₁ ++ l₂)).Nodup) :
    misplaced (l₁ ++ l₂) = (misplaced l₁ || misplaced l₂) := by
  rw [keys_append, List.nodup_append] at hn
  exact Mark.misplaced_append fun k hk hk₁ => hn.2.2 k hk₁ k (h.closed k hk) rfl

theorem misplaced_flatten_of_whole {ls : List (List Mark)} (h : ∀ l ∈ ls, Whole l)
    (hn : (keys ls.flatten).Nodup) : misplaced ls.flatten = ls.any misplaced := by
  induction ls with
  | nil => rfl
  | cons l ls ih =>
      have hrest : ∀ l' ∈ ls, Whole l' :=
        fun l' hl => h l' (List.mem_cons_of_mem l hl)
      rw [List.flatten_cons] at hn ⊢
      rw [(whole_flatten hrest).misplaced_append hn, List.any_cons, ih hrest]
      rw [keys_append, List.nodup_append] at hn
      exact hn.2.1

/-- An endpoint behind the channel that it reads changes nothing. -/
theorem misplaced_concat {l : List Mark} {k e : ComponentKey} (h : k ∈ keys l) :
    misplaced (l ++ [endpoint e (some k)]) = misplaced l := by
  rw [misplaced, misplacedFrom_append]
  simp [misplacedFrom, reads?, h]
  rfl

end Mark

/-- What a flow stands on: nothing of its own, a channel that nothing reads,
or a channel with what stands behind it. -/
inductive Tip where
  | vacant
  | bare (key : ComponentKey)
  | shared (key : ComponentKey) (behind : List Mark)

namespace Tip

/-- The channel that it stands on. -/
def key? : Tip → Option ComponentKey
  | .vacant => none
  | .bare k | .shared k _ => some k

/-- What stands behind that channel. -/
def behind : Tip → List Mark
  | .shared _ l => l
  | .vacant | .bare _ => []

/-- The channel with what stands behind it. -/
def marks : Tip → List Mark
  | .vacant => []
  | .bare k => [.channel k]
  | .shared k l => .channel k :: l

/-- The kind of channel that the flow stands on. -/
def landing : Tip → Landing
  | .vacant => .unset
  | .bare _ => .bare
  | .shared _ l => .shared (Mark.opens l)

theorem key?_eq_none {t : Tip} : t.key? = none ↔ t = .vacant := by
  cases t <;> simp [key?]

end Tip

/-- The order of a flow under assembly. -/
structure Sketch where
  base : List Mark
  tip : Tip
  /-- The flows held back by taps. -/
  taps : List (List Mark)

namespace Sketch

/-- The order of what is registered. -/
def marks (s : Sketch) : List Mark :=
  s.base ++ s.tip.marks

/-- All keys, those of the flows held back too. -/
def keys (s : Sketch) : List ComponentKey :=
  Mark.keys (s.marks ++ s.taps.flatten)

/-- The outlook of the flow, told from its order. -/
def outlook (s : Sketch) : Outlook where
  landing := s.tip.landing
  crowded := Mark.crowded s.base || Mark.crowded s.tip.behind ||
    s.taps.any Mark.crowded
  misplaced := Mark.misplaced s.base || Mark.misplaced s.tip.marks ||
    s.taps.any Mark.misplaced

/-- What a builder keeps to: the base is whole, what stands behind the channel
of the tip reads it, flows are held back only while there is a tip, and no key
stands twice. -/
structure Sound (s : Sketch) : Prop where
  base : Mark.Whole s.base
  behind : ∀ k l, s.tip = .shared k l → l ≠ [] ∧ Mark.Quiet l ∧ k ∈ Mark.reads l ∧
    ∀ j ∈ Mark.reads l, j = k ∨ j ∈ Mark.keys l
  vacant : s.tip = .vacant → s.taps = []
  taps : ∀ l ∈ s.taps, Mark.Block l
  distinct : s.keys.Nodup

/-- An endpoint that reads the given channel; where there is none, it reads a
name, or a channel that was made for it. -/
inductive Reader : Option ComponentKey → List Mark → Prop
  | tip (k e : ComponentKey) : Reader (some k) [.endpoint e (some k)]
  | name (e : ComponentKey) : Reader none [.endpoint e none]
  | made (k e : ComponentKey) : Reader none [.channel k, .endpoint e (some k)]

/-- What stands before the endpoint that comes next, if side flows go ahead of
its channel. -/
def lead (s : Sketch) (sides : List (List Mark)) : List Mark :=
  match s.tip with
  | .vacant => s.base ++ sides.flatten
  | .bare k => s.base ++ sides.flatten ++ [.channel k]
  | .shared k l => s.base ++ .channel k :: l ++ sides.flatten

/-- The sketch once an endpoint reads the tip. -/
def wired (s : Sketch) (sides : List (List Mark)) (reader : List Mark) : Sketch :=
  ⟨s.lead sides ++ reader ++ s.taps.flatten, .vacant, []⟩

variable {s : Sketch}

theorem keys_lead (s : Sketch) (sides : List (List Mark)) (k : ComponentKey) :
    (Mark.keys (s.lead sides)).count k + (Mark.keys s.taps.flatten).count k =
      s.keys.count k + (Mark.keys sides.flatten).count k := by
  unfold keys lead marks
  cases s.tip <;> simp [Tip.marks, List.count_cons] <;> omega

theorem mem_keys_of_tip {k : ComponentKey} (h : s.tip.key? = some k) :
    k ∈ s.keys := by
  cases ht : s.tip with
  | vacant => simp [ht, Tip.key?] at h
  | bare j | shared j l =>
      obtain rfl : j = k := by simpa [ht, Tip.key?] using h
      simp [keys, marks, ht, Tip.marks]

theorem keys_wired (s : Sketch) (sides : List (List Mark)) (reader : List Mark)
    (k : ComponentKey) :
    (s.wired sides reader).keys.count k = s.keys.count k +
      (Mark.keys sides.flatten).count k + (Mark.keys reader).count k := by
  have hlead := s.keys_lead sides k
  simp only [keys, wired, marks, Tip.marks, List.append_nil, List.flatten_nil,
    Mark.keys_append, List.count_append] at hlead ⊢
  omega

/-! ## The tip and its reader -/

theorem Reader.whole {k? : Option ComponentKey} {reader : List Mark}
    (h : Reader k? reader) :
    Mark.Whole ((k?.map Mark.channel).toList ++ reader) := by
  cases h with
  | tip k e => exact ⟨Mark.quiet_concat_endpoint [.channel k] e (some k), by simp⟩
  | name e => exact ⟨Mark.quiet_concat_endpoint [] e none, by simp⟩
  | made k e => exact ⟨Mark.quiet_concat_endpoint [.channel k] e (some k), by simp⟩

theorem Reader.crowded {k? : Option ComponentKey} {reader : List Mark}
    (h : Reader k? reader) :
    Mark.crowded ((k?.map Mark.channel).toList ++ reader) = false := by
  cases h <;> rfl

theorem Reader.misplaced {k? : Option ComponentKey} {reader : List Mark}
    (h : Reader k? reader) :
    Mark.misplaced ((k?.map Mark.channel).toList ++ reader) = false := by
  cases h <;> simp [Mark.misplaced, Mark.misplacedFrom, Mark.reads?]

theorem keys_of_vacant (hv : s.tip = .vacant) (ht : s.taps = [])
    (k : ComponentKey) :
    s.keys.count k = (Mark.keys s.base).count k := by
  simp [keys, marks, hv, Tip.marks, ht]

/-- A flow that stands on no channel holds nothing back. -/
theorem Sound.taps_of_unset (hs : s.Sound) (h : s.outlook.landing = .unset) :
    s.taps = [] := by
  refine hs.vacant ?_
  cases ht : s.tip with
  | vacant => rfl
  | bare k | shared k l => simp [outlook, ht, Tip.landing] at h

/-- A channel with its readers behind it is whole. -/
theorem Sound.whole_shared (hs : s.Sound) {k : ComponentKey} {l : List Mark}
    (ht : s.tip = .shared k l) :
    Mark.Whole (.channel k :: l) := by
  obtain ⟨hne, hq, -, hc⟩ := hs.behind k l ht
  refine ⟨hq.cons hne _, fun j hj => ?_⟩
  rw [Mark.keys_cons, List.mem_cons]
  exact hc j hj

/-- The parts of a sketch once the tip has its reader. A reader is whole
together with the channel that it reads. -/
def parts (s : Sketch) (sides : List (List Mark)) (reader : List Mark) :
    List (List Mark) :=
  match s.tip with
  | .vacant => s.base :: sides ++ reader :: s.taps
  | .bare k => s.base :: sides ++ (.channel k :: reader) :: s.taps
  | .shared k l => s.base :: (.channel k :: l ++ sides.flatten ++ reader) :: s.taps

theorem base_wired (s : Sketch) (sides : List (List Mark)) (reader : List Mark) :
    (s.wired sides reader).base = (s.parts sides reader).flatten := by
  unfold wired lead parts
  cases s.tip <;> simp

theorem base_prefix_wired (s : Sketch) (sides : List (List Mark))
    (reader : List Mark) :
    s.base <+: (s.wired sides reader).base := by
  rw [base_wired]
  unfold parts
  split
  · exact List.prefix_append _ _
  · exact List.prefix_append _ _
  · exact List.prefix_append _ _

theorem keys_of_wired (s : Sketch) (sides : List (List Mark)) (reader : List Mark) :
    (s.wired sides reader).keys = Mark.keys (s.parts sides reader).flatten := by
  rw [← base_wired]
  simp [keys, marks, wired, Tip.marks]

section

variable (hs : s.Sound) {sides : List (List Mark)} (hw : ∀ l ∈ sides, Mark.Whole l)
  {reader : List Mark} (hr : Reader s.tip.key? reader)

include hs hw hr

theorem Sound.whole_parts : ∀ l ∈ s.parts sides reader, Mark.Whole l := by
  unfold parts
  cases ht : s.tip with
  | vacant | bare k =>
      rw [ht] at hr
      simp only [List.cons_append, List.mem_cons, List.mem_append]
      rintro l (rfl | hl | rfl | hl)
      · exact hs.base
      · exact hw l hl
      · exact hr.whole
      · exact (hs.taps l hl).whole
  | shared k l =>
      rw [ht] at hr
      simp only [List.mem_cons]
      rintro l' (rfl | rfl | hl)
      · exact hs.base
      · obtain ⟨e, rfl⟩ : ∃ e, reader = [.endpoint e (some k)] := by
          cases hr
          exact ⟨_, rfl⟩
        refine ⟨Mark.quiet_concat_endpoint _ e _, fun j hj => ?_⟩
        have hlead := ((hs.whole_shared ht).append (Mark.whole_flatten hw)).closed
        rw [Mark.reads_append, List.mem_append] at hj
        rw [Mark.keys_append, List.mem_append]
        rcases hj with hj | hj
        · exact .inl (hlead j hj)
        · obtain rfl : j = k := by simpa using hj
          exact .inl (by simp)
      · exact (hs.taps l' hl).whole

theorem Sound.crowded_wired :
    Mark.crowded (s.wired sides reader).base =
      (s.outlook.close.crowded || sides.any Mark.crowded) := by
  have hparts := hs.whole_parts hw hr
  rw [base_wired, Mark.crowded_flatten fun l hl => (hparts l hl).quiet]
  unfold parts outlook Outlook.close
  cases ht : s.tip with
  | vacant | bare k =>
      rw [ht] at hr
      have hfree := hr.crowded
      simp only [Tip.key?, Option.map_some, Option.map_none, Option.toList_some,
        Option.toList_none, List.nil_append, List.singleton_append] at hfree
      simp only [List.cons_append, List.any_cons, List.any_append, hfree,
        Tip.behind, Tip.landing, Landing.isSqueezed, Bool.or_false, Bool.false_or]
      simp only [Mark.crowded, Bool.or_false]
      ac_rfl
  | shared k l =>
      rw [ht] at hr
      have hshared := (hs.whole_shared ht).quiet
      have hsides : ∀ l ∈ sides, Mark.Quiet l := fun l hl => (hw l hl).quiet
      have hfree : Mark.crowded reader = false := by cases hr; rfl
      simp only [List.any_cons]
      rw [Mark.crowded_append (hshared.append (Mark.quiet_flatten hsides)),
        Mark.crowded_append hshared, Mark.crowded_flatten hsides, hfree]
      simp only [Mark.crowded, Mark.isChannel, Tip.behind, Tip.landing,
        Landing.isSqueezed, Bool.true_and, Bool.or_false]
      ac_rfl

theorem Sound.misplaced_wired (hn : (s.wired sides reader).keys.Nodup) :
    Mark.misplaced (s.wired sides reader).base =
      (s.outlook.misplaced || sides.any Mark.misplaced) := by
  have hparts := hs.whole_parts hw hr
  rw [keys_of_wired] at hn
  rw [base_wired, Mark.misplaced_flatten_of_whole hparts hn]
  unfold parts at hn ⊢
  unfold outlook
  cases ht : s.tip with
  | vacant | bare k =>
      rw [ht] at hr
      have hfree := hr.misplaced
      simp only [Tip.key?, Option.map_some, Option.map_none, Option.toList_some,
        Option.toList_none, List.nil_append, List.singleton_append] at hfree
      simp only [List.cons_append, List.any_cons, List.any_append, hfree, Tip.marks,
        Bool.false_or]
      simp only [Mark.misplaced, Mark.misplacedFrom, Mark.reads?, Option.any_none,
        Bool.or_false]
      ac_rfl
  | shared k l =>
      rw [ht] at hr hn
      obtain ⟨e, rfl⟩ : ∃ e, reader = [.endpoint e (some k)] := by
        cases hr
        exact ⟨_, rfl⟩
      have hinner : (Mark.keys (.channel k :: l ++ sides.flatten)).Nodup := by
        simp only [List.flatten_cons, Mark.keys_append] at hn
        rw [Mark.keys_append]
        exact (List.nodup_append.1
          (List.nodup_append.1 (List.nodup_append.1 hn).2.1).1).1
      have hflat : (Mark.keys sides.flatten).Nodup := by
        rw [Mark.keys_append] at hinner
        exact (List.nodup_append.1 hinner).2.1
      simp only [List.any_cons]
      rw [Mark.misplaced_concat (by simp),
        (Mark.whole_flatten hw).misplaced_append hinner,
        Mark.misplaced_flatten_of_whole hw hflat, Tip.marks]
      ac_rfl

/-- Behind its reader the tip is gone, and what was squeezed behind it shows. -/
theorem Sound.outlook_wired (hn : (s.wired sides reader).keys.Nodup) :
    (s.wired sides reader).outlook =
      ⟨.unset, s.outlook.close.crowded || sides.any Mark.crowded,
        s.outlook.misplaced || sides.any Mark.misplaced⟩ := by
  have hcrowded := hs.crowded_wired hw hr
  have hmisplaced := hs.misplaced_wired hw hr hn
  show Outlook.mk _ _ _ = _
  rw [hcrowded, hmisplaced]
  simp [wired, Tip.landing, Tip.behind, Tip.marks, Mark.crowded, Mark.misplaced,
    Mark.misplacedFrom]

theorem Sound.wired (hn : (s.wired sides reader).keys.Nodup) :
    (s.wired sides reader).Sound where
  base := by
    rw [base_wired]
    exact Mark.whole_flatten (hs.whole_parts hw hr)
  behind k l ht := by cases ht
  vacant _ := rfl
  taps l hl := by cases hl
  distinct := hn

end

end Sketch

end FlowAssembly
