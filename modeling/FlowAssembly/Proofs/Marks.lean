import FlowAssembly.Builder.Finish
import FlowAssembly.Proofs.RegistryLaws

/-!
# The order of a registry

The rules on the order of a finished flow look at little of each component:
which one it is, whether it is a channel, and the channel that it reads from
if it is an endpoint. A registry is therefore read as a list of marks. Binding
an output leaves the marks as they are, and the other operations of a registry
do to the marks what they do to the components.

Two faults are told apart. A list is `crowded` where two channels stand in a
row, and `misplaced` where an endpoint does not stand behind the channel that
it reads. Both are computed, and both fall apart over a list that is put
together from parts, if the parts do not touch: a part that does not end on a
channel is never crowded with the next one, and a part that reads none of the
keys before it is misplaced on its own or not at all.
-/

namespace FlowAssembly

/-- What the rules on order see of a component. -/
inductive Mark where
  | channel (key : ComponentKey)
  | endpoint (key : ComponentKey) (reads : Option ComponentKey)
  | source (key : ComponentKey)
deriving DecidableEq, Repr

/-- The mark of a component. -/
def Component.mark : Component → Mark
  | .channel c => .channel c.key
  | .endpoint e => .endpoint e.key (e.input.channel?.map Channel.key)
  | .source s => .source s.key

/-- The marks of a registry, in order. -/
def Registry.marks (r : Registry) : List Mark :=
  r.components.map Component.mark

namespace Mark

/-- The identity of the component. -/
def key : Mark → ComponentKey
  | .channel k | .endpoint k _ | .source k => k

/-- Whether the component is a channel. -/
def isChannel : Mark → Bool
  | .channel _ => true
  | .endpoint .. | .source _ => false

/-- The channel that the component reads from. -/
def reads? : Mark → Option ComponentKey
  | .endpoint _ reads => reads
  | .channel _ | .source _ => none

end Mark

@[simp]
theorem Component.key_mark (c : Component) : c.mark.key = c.key := by
  cases c <;> rfl

@[simp]
theorem Component.mark_withOutput (target : Target) (c : Component) :
    (c.withOutput target).mark = c.mark := by
  cases c <;> rfl

/-! ## Lists of marks -/

namespace Mark

/-- The keys of marks. -/
def keys (l : List Mark) : List ComponentKey :=
  l.map key

/-- The channels that marks read from. -/
def reads (l : List Mark) : List ComponentKey :=
  l.filterMap reads?

/-- Whether the first mark is a channel. -/
def opens (l : List Mark) : Bool :=
  l.head?.any isChannel

/-- The last mark, if there is one, is not a channel. -/
def Quiet (l : List Mark) : Prop :=
  ∀ m ∈ l.getLast?, m.isChannel = false

/-- Whether two channels stand in a row. -/
def crowded : List Mark → Bool
  | [] => false
  | m :: rest => (m.isChannel && opens rest) || crowded rest

/-- Whether an endpoint does not stand behind the channel it reads, given the
keys that stand before the list. -/
def misplacedFrom : List ComponentKey → List Mark → Bool
  | _, [] => false
  | seen, m :: rest =>
      (m.reads?.any fun k => !seen.contains k) || misplacedFrom (m.key :: seen) rest

/-- Whether an endpoint does not stand behind the channel it reads. -/
def misplaced (l : List Mark) : Bool :=
  misplacedFrom [] l

variable {l l₁ l₂ : List Mark}

@[simp]
theorem keys_nil : keys [] = [] := rfl

@[simp]
theorem keys_cons (m : Mark) (l : List Mark) : keys (m :: l) = m.key :: keys l :=
  rfl

@[simp]
theorem keys_append (l₁ l₂ : List Mark) : keys (l₁ ++ l₂) = keys l₁ ++ keys l₂ :=
  List.map_append

@[simp]
theorem keys_flatten (ls : List (List Mark)) :
    keys ls.flatten = ls.flatMap keys := by
  rw [keys, List.map_flatten, List.flatMap_def]
  rfl

@[simp]
theorem key_channel (k : ComponentKey) : (channel k).key = k := rfl

@[simp]
theorem key_endpoint (k : ComponentKey) (r : Option ComponentKey) :
    (endpoint k r).key = k :=
  rfl

@[simp]
theorem reads_nil : reads [] = [] := rfl

@[simp]
theorem reads_channel (k : ComponentKey) (l : List Mark) :
    reads (channel k :: l) = reads l :=
  rfl

@[simp]
theorem reads_endpoint (k : ComponentKey) (r : Option ComponentKey)
    (l : List Mark) :
    reads (endpoint k r :: l) = r.toList ++ reads l := by
  cases r <;> rfl

@[simp]
theorem reads_append (l₁ l₂ : List Mark) :
    reads (l₁ ++ l₂) = reads l₁ ++ reads l₂ :=
  List.filterMap_append

@[simp]
theorem reads_flatten (ls : List (List Mark)) :
    reads ls.flatten = ls.flatMap reads := by
  induction ls with
  | nil => rfl
  | cons l ls ih => simp [ih]

/-! ## Quiet ends and crowded lists -/

@[simp]
theorem quiet_nil : Quiet [] := by
  intro m hm
  cases hm

theorem quiet_concat_endpoint (l : List Mark) (k : ComponentKey)
    (r : Option ComponentKey) :
    Quiet (l ++ [endpoint k r]) := by
  intro m hm
  simp only [List.getLast?_append, List.getLast?_singleton, Option.some_or,
    Option.mem_some_iff] at hm
  rw [← hm]
  rfl

theorem Quiet.append (h₁ : Quiet l₁) (h₂ : Quiet l₂) : Quiet (l₁ ++ l₂) := by
  intro m hm
  rw [List.getLast?_append] at hm
  cases h : l₂.getLast? with
  | some m' => exact h₂ m (by rw [h] at hm ⊢; simpa using hm)
  | none => exact h₁ m (by rw [h] at hm; simpa using hm)

theorem Quiet.of_append (h : Quiet (l₁ ++ l₂)) : Quiet l₂ := by
  intro m hm
  refine h m ?_
  rw [List.getLast?_append, Option.mem_def.1 hm]
  rfl

theorem Quiet.cons (h : Quiet l) (hne : l ≠ []) (m : Mark) : Quiet (m :: l) := by
  intro m' hm
  rw [List.getLast?_cons_of_ne_nil hne] at hm
  exact h m' hm

theorem quiet_flatten {ls : List (List Mark)} (h : ∀ l ∈ ls, Quiet l) :
    Quiet ls.flatten := by
  induction ls with
  | nil => exact quiet_nil
  | cons l ls ih =>
      rw [List.flatten_cons]
      exact (h l List.mem_cons_self).append
        (ih fun l' hl => h l' (List.mem_cons_of_mem l hl))

theorem opens_append (l₁ l₂ : List Mark) :
    opens (l₁ ++ l₂) = if l₁ = [] then opens l₂ else opens l₁ := by
  cases l₁ with
  | nil => rfl
  | cons m l => rfl

/-- A part that does not end on a channel is not crowded with what follows
it. -/
theorem crowded_append (h : Quiet l₁) :
    crowded (l₁ ++ l₂) = (crowded l₁ || crowded l₂) := by
  induction l₁ with
  | nil => rfl
  | cons m l ih =>
      match l, h with
      | [], h =>
          have hm : m.isChannel = false := h m rfl
          simp [crowded, hm]
      | m' :: l, h =>
          rw [List.cons_append, crowded, crowded,
            ih fun x hx => h x (by simpa using hx), Bool.or_assoc]
          rfl

theorem crowded_flatten {ls : List (List Mark)} (h : ∀ l ∈ ls, Quiet l) :
    crowded ls.flatten = ls.any crowded := by
  induction ls with
  | nil => rfl
  | cons l ls ih =>
      rw [List.flatten_cons, crowded_append (h l List.mem_cons_self), List.any_cons,
        ih fun l' hl => h l' (List.mem_cons_of_mem l hl)]

/-! ## Misplaced endpoints -/

theorem misplacedFrom_congr {seen seen' : List ComponentKey}
    (h : ∀ k ∈ reads l, k ∈ seen ↔ k ∈ seen') :
    misplacedFrom seen l = misplacedFrom seen' l := by
  induction l generalizing seen seen' with
  | nil => rfl
  | cons m l ih =>
      have hrest : ∀ k ∈ reads l, k ∈ m.key :: seen ↔ k ∈ m.key :: seen' := by
        intro k hk
        have hk' : k ∈ reads (m :: l) := by
          rw [reads, List.filterMap_cons]
          split
          · exact hk
          · exact List.mem_cons_of_mem _ hk
        rw [List.mem_cons, List.mem_cons, h k hk']
      rw [misplacedFrom, misplacedFrom, ih hrest]
      cases hm : m.reads? with
      | none => rfl
      | some k =>
          have hk : k ∈ reads (m :: l) := by simp [reads, hm]
          have hcontains : seen.contains k = seen'.contains k := by
            rw [Bool.eq_iff_iff, List.contains_iff_mem, List.contains_iff_mem]
            exact h k hk
          simp only [Option.any_some, hcontains]

theorem misplacedFrom_append (seen : List ComponentKey) (l₁ l₂ : List Mark) :
    misplacedFrom seen (l₁ ++ l₂) =
      (misplacedFrom seen l₁ || misplacedFrom (keys l₁ ++ seen) l₂) := by
  induction l₁ generalizing seen with
  | nil => rfl
  | cons m l ih =>
      rw [List.cons_append, misplacedFrom, misplacedFrom, ih, Bool.or_assoc]
      refine congrArg _ (congrArg _ (misplacedFrom_congr fun k _ => ?_))
      simp only [List.mem_append, List.mem_cons, keys_cons, List.cons_append]
      constructor
      · rintro (h | h | h)
        · exact .inr (.inl h)
        · exact .inl h
        · exact .inr (.inr h)
      · rintro (h | h | h)
        · exact .inr (.inl h)
        · exact .inl h
        · exact .inr (.inr h)

/-- A part that reads nothing that stands before it is misplaced on its own or
not at all. -/
theorem misplacedFrom_eq {seen : List ComponentKey} (h : ∀ k ∈ reads l, k ∉ seen) :
    misplacedFrom seen l = misplaced l :=
  misplacedFrom_congr fun k hk =>
    ⟨fun hs => absurd hs (h k hk), fun hn => absurd hn List.not_mem_nil⟩

theorem misplaced_append (h : ∀ k ∈ reads l₂, k ∉ keys l₁) :
    misplaced (l₁ ++ l₂) = (misplaced l₁ || misplaced l₂) := by
  rw [misplaced, misplacedFrom_append,
    misplacedFrom_eq (l := l₂) fun k hk => by simpa using h k hk]
  rfl

/-- Parts that read nothing of each other, and of what stands before them
nothing but the given keys. -/
theorem misplacedFrom_flatten {ls : List (List Mark)} {seen : List ComponentKey}
    (known : List ComponentKey)
    (hseen : ∀ l ∈ ls, ∀ k ∈ reads l, k ∈ seen ↔ k ∈ known)
    (hapart : ls.Pairwise fun l l' => ∀ k ∈ reads l', k ∉ keys l) :
    misplacedFrom seen ls.flatten = ls.any (misplacedFrom known) := by
  induction ls generalizing seen with
  | nil => rfl
  | cons l ls ih =>
      rw [List.pairwise_cons] at hapart
      rw [List.flatten_cons, misplacedFrom_append,
        misplacedFrom_congr (hseen l List.mem_cons_self), List.any_cons]
      refine congrArg _ (ih (fun l' hl k hk => ?_) hapart.2)
      rw [List.mem_append, ← hseen l' (List.mem_cons_of_mem l hl) k hk]
      exact ⟨fun h => h.resolve_left (hapart.1 l' hl k hk), .inr⟩

theorem misplacedFrom_of_reads {seen : List ComponentKey} {k : ComponentKey}
    (hr : k ∈ reads l) (hs : k ∉ seen) (hk : k ∉ keys l) :
    misplacedFrom seen l = true := by
  induction l generalizing seen with
  | nil => cases hr
  | cons m l ih =>
      rw [keys_cons, List.mem_cons, not_or] at hk
      rw [misplacedFrom, Bool.or_eq_true]
      cases hm : m.reads? with
      | none =>
          rw [reads, List.filterMap_cons, hm] at hr
          exact .inr (ih hr (by simp [hk.1, hs]) hk.2)
      | some j =>
          rw [reads, List.filterMap_cons, hm, List.mem_cons] at hr
          rcases hr with rfl | hr
          · exact .inl (by simpa using hs)
          · exact .inr (ih hr (by simp [hk.1, hs]) hk.2)

/-- It does not matter to a part that does not read a channel whether the
channel stands before or behind it. -/
theorem misplacedFrom_move {seen : List ComponentKey} {k : ComponentKey}
    (h : k ∉ reads l₁) :
    misplacedFrom seen (l₁ ++ channel k :: l₂) =
      misplacedFrom (k :: seen) (l₁ ++ l₂) := by
  rw [misplacedFrom_append, misplacedFrom_append, misplacedFrom]
  have hfirst : misplacedFrom seen l₁ = misplacedFrom (k :: seen) l₁ := by
    refine misplacedFrom_congr fun j hj => ?_
    have hne : j ≠ k := fun heq => h (heq ▸ hj)
    simp [hne]
  have hsecond : misplacedFrom (k :: (keys l₁ ++ seen)) l₂ =
      misplacedFrom (keys l₁ ++ k :: seen) l₂ := by
    refine misplacedFrom_congr fun j _ => ?_
    simp only [List.mem_cons, List.mem_append]
    constructor
    · rintro (h | h | h)
      · exact .inr (.inl h)
      · exact .inl h
      · exact .inr (.inr h)
    · rintro (h | h | h)
      · exact .inr (.inl h)
      · exact .inl h
      · exact .inr (.inr h)
  rw [hfirst, key_channel, hsecond]
  rfl

end Mark

/-! ## What the operations of a registry do to the marks -/

namespace Registry

open Mark

theorem keys_marks (r : Registry) :
    Mark.keys r.marks = r.components.map Component.key := by
  simp only [Mark.keys, marks, List.map_map]
  exact List.map_congr_left fun c _ => c.key_mark

theorem nodup_keys_marks (r : Registry) : (Mark.keys r.marks).Nodup := by
  rw [keys_marks]
  exact r.nodup_keys

theorem contains_iff_marks {r : Registry} {k : ComponentKey} : r.contains k = true ↔
      k ∈ Mark.keys r.marks := by
  rw [contains_iff, keys_marks]

@[simp]
theorem marks_empty : empty.marks = [] := rfl

theorem marks_add_of_not_mem {r : Registry} {c : Component}
    (h : c.key ∉ Mark.keys r.marks) :
    (r.add c).marks = r.marks ++ [c.mark] := by
  rw [← contains_iff_marks] at h
  rw [marks, components_add, if_neg h, List.map_append]
  rfl

@[simp]
theorem marks_bindOutput (r : Registry) (key : ComponentKey) (target : Target) :
    (r.bindOutput key target).marks = r.marks := by
  rw [marks, components_bindOutput, List.map_map]
  refine List.map_congr_left fun c _ => ?_
  rw [Function.comp_apply]
  split
  · exact c.mark_withOutput target
  · rfl

theorem marks_extend (r other : Registry) :
    (r.extend other).marks = r.marks ++ other.marks.filter fun m =>
      m.key ∉ Mark.keys r.marks := by
  show (r.extend other).components.map Component.mark = r.marks ++
        (other.components.map Component.mark).filter fun m =>
          m.key ∉ Mark.keys r.marks
  rw [components_extend, List.map_append]
  refine congrArg (r.marks ++ ·) ?_
  rw [List.filter_map]
  refine congrArg _ (List.filter_congr fun c _ => ?_)
  rw [Function.comp_apply, Component.key_mark, Bool.eq_iff_iff]
  simp only [Bool.not_eq_true', decide_eq_true_eq]
  rw [← contains_iff_marks, Bool.not_eq_true]

/-- Registries that share nothing but what the first one has are added one
behind the other, without what they share. -/
theorem marks_foldl_extend_shared {r : Registry} {others : List Registry}
    (shared : List ComponentKey) (hs : ∀ k ∈ shared, k ∈ Mark.keys r.marks)
    (hn : (Mark.keys r.marks ++ Mark.keys
        (others.flatMap fun o => o.marks.filter fun m => m.key ∉ shared)).Nodup) :
    (others.foldl extend r).marks = r.marks ++ others.flatMap fun o =>
      o.marks.filter fun m => m.key ∉ shared := by
  induction others generalizing r with
  | nil => simp
  | cons other others ih =>
      rw [List.flatMap_cons, Mark.keys_append] at hn
      have hfilter : (other.marks.filter fun m => m.key ∉ Mark.keys r.marks) =
          other.marks.filter fun m => m.key ∉ shared := by
        refine List.filter_congr fun m hm => ?_
        rw [Bool.eq_iff_iff, decide_eq_true_eq, decide_eq_true_eq]
        refine not_congr ⟨fun hk => ?_, hs m.key⟩
        -- A key of the first registry that is not shared would stand twice.
        by_cases hks : m.key ∈ shared
        · exact hks
        · have hin :
              m.key ∈ Mark.keys (other.marks.filter fun m => m.key ∉ shared) :=
            List.mem_map.2 ⟨m, List.mem_filter.2 ⟨hm, by simpa using hks⟩, rfl⟩
          exact absurd rfl
            ((List.nodup_append.1 hn).2.2 m.key hk m.key
              (List.mem_append_left _ hin))
      have hstep : (r.extend other).marks = r.marks ++ other.marks.filter fun m =>
          m.key ∉ shared := by
        rw [marks_extend, hfilter]
      rw [List.foldl_cons, ih, hstep, List.flatMap_cons, List.append_assoc]
      · intro k hk
        rw [hstep, Mark.keys_append]
        exact List.mem_append_left _ (hs k hk)
      · rw [hstep, Mark.keys_append, List.append_assoc]
        exact hn

theorem marks_foldl_extend {r : Registry} {others : List Registry}
    (hn : (Mark.keys r.marks ++ Mark.keys (others.flatMap marks)).Nodup) :
    (others.foldl extend r).marks = r.marks ++ others.flatMap marks := by
  have hall :
      (fun o : Registry => o.marks.filter fun m =>
        m.key ∉ ([] : List ComponentKey)) = marks := by
    funext o
    simp
  have h :
      (Mark.keys r.marks ++ Mark.keys
        (others.flatMap fun o => o.marks.filter fun m => m.key ∉ [])).Nodup →
      (others.foldl extend r).marks = r.marks ++ others.flatMap fun o =>
        o.marks.filter fun m => m.key ∉ [] :=
    marks_foldl_extend_shared [] (by simp)
  rw [hall] at h
  exact h hn

theorem marks_relocateToEnd (r : Registry) (k : ComponentKey) :
    (r.relocateToEnd k).marks = (r.marks.filter fun m => m.key ≠ k) ++
      r.marks.filter fun m => m.key = k := by
  rw [marks, components_relocateToEnd, List.map_append, marks, List.filter_map,
    List.filter_map]
  simp only [Function.comp_def, Component.key_mark]

end Registry

theorem Mark.filter_ne_of_nodup {l₁ l₂ : List Mark} {m : Mark}
    (hn : (keys (l₁ ++ m :: l₂)).Nodup) :
    (l₁ ++ m :: l₂).filter (fun x => x.key ≠ m.key) = l₁ ++ l₂ := by
  rw [keys_append, keys_cons, List.nodup_append, List.nodup_cons] at hn
  have hkeep : ∀ {l : List Mark}, m.key ∉ keys l →
      l.filter (fun x => x.key ≠ m.key) = l := by
    intro l hl
    refine List.filter_eq_self.2 fun x hx => ?_
    have hne : x.key ≠ m.key := fun heq => hl (heq ▸ List.mem_map_of_mem hx)
    simpa using hne
  rw [List.filter_append, List.filter_cons, hkeep hn.2.1.1,
    hkeep fun hm => hn.2.2 _ hm _ List.mem_cons_self rfl]
  simp

theorem Mark.filter_eq_of_nodup {l₁ l₂ : List Mark} {m : Mark}
    (hn : (keys (l₁ ++ m :: l₂)).Nodup) :
    (l₁ ++ m :: l₂).filter (fun x => x.key = m.key) = [m] := by
  rw [keys_append, keys_cons, List.nodup_append, List.nodup_cons] at hn
  have hdrop : ∀ {l : List Mark}, m.key ∉ keys l →
      l.filter (fun x => x.key = m.key) = [] := by
    intro l hl
    refine List.filter_eq_nil_iff.2 fun x hx => ?_
    have hne : x.key ≠ m.key := fun heq => hl (heq ▸ List.mem_map_of_mem hx)
    simpa using hne
  rw [List.filter_append, List.filter_cons, hdrop hn.2.1.1,
    hdrop fun hm => hn.2.2 _ hm _ List.mem_cons_self rfl]
  simp

namespace Registry

/-- Moving a component to the end takes it out of its place. -/
theorem marks_relocateToEnd_of_eq {r : Registry} {l₁ l₂ : List Mark} {m : Mark}
    (h : r.marks = l₁ ++ m :: l₂) :
    (r.relocateToEnd m.key).marks = l₁ ++ l₂ ++ [m] := by
  have hn := r.nodup_keys_marks
  rw [h] at hn
  rw [marks_relocateToEnd, h, Mark.filter_ne_of_nodup hn,
    Mark.filter_eq_of_nodup hn]

theorem endsWith_iff {r : Registry} {k : ComponentKey} :
    r.endsWith k = true ↔ ∃ m ∈ r.marks.getLast?, m.key = k := by
  unfold endsWith last? marks components
  rw [decide_eq_true_eq, List.getLast?_map, List.getLast?_map]
  cases r.entries.getLast? with
  | none => simp
  | some e => simp

@[simp]
theorem marks_extendBefore_nil (r : Registry) (trailing : Option ComponentKey) :
    (r.extendBefore trailing []).marks = r.marks := by
  unfold extendBefore
  split
  · next k h =>
      obtain ⟨m, hm, rfl⟩ := endsWith_iff.1 (Option.filter_eq_some_iff.1 h).2
      obtain ⟨l, hl⟩ := List.getLast?_eq_some_iff.1 hm
      rw [List.foldl_nil, marks_relocateToEnd_of_eq hl, hl, List.append_nil]
  · rfl

theorem ne_of_last_of_not_mem {r : Registry} {k : ComponentKey}
    (h : k ∉ Mark.keys r.marks) :
    ∀ m ∈ r.marks.getLast?, m.key ≠ k := by
  rintro m hm rfl
  exact h (List.mem_map_of_mem (List.mem_of_getLast? hm))

theorem ne_of_last_of_behind {r : Registry} {l₁ l₂ : List Mark} {m : Mark}
    (h : r.marks = l₁ ++ m :: l₂) (hne : l₂ ≠ []) :
    ∀ m' ∈ r.marks.getLast?, m'.key ≠ m.key := by
  intro m' hm heq
  have hn := r.nodup_keys_marks
  rw [h] at hm hn
  have hlast : m' ∈ l₂ := by
    cases hl : l₂.getLast? with
    | none => exact absurd (List.getLast?_eq_none_iff.1 hl) hne
    | some m'' =>
        have hm' : m'' = m' := by
          simpa [List.getLast?_append, List.getLast?_cons_of_ne_nil hne, hl]
            using hm
        exact List.mem_of_getLast? (hm' ▸ hl)
  rw [Mark.keys_append, Mark.keys_cons, List.nodup_append, List.nodup_cons] at hn
  exact hn.2.1.1 (heq ▸ List.mem_map_of_mem hlast)

/-- A channel that stands last stays last. -/
theorem marks_extendBefore_last {r : Registry} {others : List Registry}
    {l : List Mark} {m : Mark} (h : r.marks = l ++ [m])
    (hn : (Mark.keys r.marks ++ Mark.keys (others.flatMap marks)).Nodup) :
    (r.extendBefore (some m.key) others).marks = l ++ others.flatMap marks ++
      [m] := by
  have hends : r.endsWith m.key = true := endsWith_iff.2 ⟨m, by simp [h], rfl⟩
  have hall := marks_foldl_extend hn
  rw [h, List.append_assoc, List.singleton_append] at hall
  unfold extendBefore
  simp only [Option.filter_some, hends, if_true]
  rw [marks_relocateToEnd_of_eq hall]

/-- Where no channel stands last that should stay there, registries are added
at the end. -/
theorem marks_extendBefore_behind {r : Registry} {others : List Registry}
    {trailing : Option ComponentKey}
    (h : ∀ k ∈ trailing, ∀ m ∈ r.marks.getLast?, m.key ≠ k)
    (hn : (Mark.keys r.marks ++ Mark.keys (others.flatMap marks)).Nodup) :
    (r.extendBefore trailing others).marks = r.marks ++ others.flatMap marks := by
  have hnone : trailing.filter r.endsWith = none := by
    rw [Option.filter_eq_none_iff]
    intro k hk hends
    obtain ⟨m, hm, hkey⟩ := endsWith_iff.1 hends
    exact h k hk m hm hkey
  unfold extendBefore
  rw [hnone]
  exact marks_foldl_extend hn

end Registry

/-! ## The checks of a finished flow -/

namespace Registry

theorem adjacentChannels?_eq_none_iff (components : List Component) :
    adjacentChannels? components = none ↔
      Mark.crowded (components.map Component.mark) = false := by
  fun_induction adjacentChannels? components with
  | case1 rest a b =>
      simp [Mark.crowded, Mark.opens, Component.mark, Mark.isChannel]
  | case2 first second rest hne ih =>
      have hquiet :
          (first.mark.isChannel && Mark.opens
            (second.mark :: rest.map Component.mark)) = false := by
        cases first <;> cases second <;>
          simp [Mark.opens, Component.mark, Mark.isChannel] at hne ⊢
      rw [ih]
      show _ ↔
          (first.mark.isChannel && Mark.opens
            (second.mark :: rest.map Component.mark) || Mark.crowded
            (second.mark :: rest.map Component.mark)) = false
      rw [hquiet, Bool.false_or]
      rfl
  | case3 components hne =>
      match components with
      | [] => simp [Mark.crowded]
      | [c] => simp [Mark.crowded, Mark.opens]
      | first :: second :: rest => exact absurd rfl (hne first second rest)

theorem unregisteredInput?_eq_none_iff (before : List ComponentKey)
    (components : List Component) :
    unregisteredInput? before components = none ↔
      Mark.misplacedFrom before (components.map Component.mark) = false := by
  induction components generalizing before with
  | nil => simp [unregisteredInput?, Mark.misplacedFrom]
  | cons c rest ih =>
      rw [List.map_cons, Mark.misplacedFrom]
      match c with
      | .channel _ | .source _ =>
          rw [unregisteredInput?, ih]
          · rfl
          · intro e he
            cases he
      | .endpoint e =>
          match hi : e.input with
          | .named _ =>
              simp [unregisteredInput?, ih, Component.mark, hi, Component.key,
                Mark.reads?, Mark.key, Target.channel?]
          | .channel input =>
              have hmark : (Component.endpoint e).mark =
                  .endpoint e.key (some input.key) := by
                simp [Component.mark, hi, Target.channel?]
              simp only [unregisteredInput?, hi, hmark, Mark.reads?,
                Option.any_some, Mark.key_endpoint, Component.key]
              cases before.contains input.key with
              | true => simp [ih]
              | false => simp

/-- A registry passes the last check exactly if its order has neither of the
two faults. -/
theorem validate_eq_ok_iff (r : Registry) :
    r.validate = .ok () ↔
      Mark.crowded r.marks = false ∧ Mark.misplaced r.marks = false := by
  have hadjacent := adjacentChannels?_eq_none_iff r.components
  have hinput := unregisteredInput?_eq_none_iff [] r.components
  unfold validate
  split
  · next a b h =>
      rw [h] at hadjacent
      simp only [reduceCtorEq, false_iff] at hadjacent ⊢
      exact fun hm => hadjacent hm.1
  · next h =>
      split
      · next e c h' =>
          rw [h'] at hinput
          simp only [reduceCtorEq, false_iff] at hinput ⊢
          exact fun hm => hinput hm.2
      · next h' => simp only [true_iff]; exact ⟨hadjacent.1 h, hinput.1 h'⟩

end Registry

end FlowAssembly
