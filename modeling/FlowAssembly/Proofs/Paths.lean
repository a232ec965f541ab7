import FlowAssembly.Expression
import Mathlib.Data.List.DropRight

/-!
# The grammar of paths

Which texts are parsed, and what is said of the others. A text is looked at
without the blanks at its two ends; what is left of it has to be a path
(`IsPath`): segments with a full stop between each two, none of them empty,
and the first of them a root. The parser cuts the text at every stop and looks
at the pieces. Cutting undoes joining, so the pieces are the segments of any
path that the text could be.

A text that is no path is refused for its first segment, if that is no root,
and for an empty segment otherwise. There is no third cause: a text has always
a first segment, and no piece of it holds a stop.
-/

namespace FlowAssembly

namespace Text

/-! ## Blanks at the ends -/

/-- The body is what is left of a text without the blanks at its two ends. -/
structure Stripped (text body : List Char) : Prop where
  blanks : ∃ lead trail, text = lead ++ body ++ trail ∧ (∀ c ∈ lead, isBlank c) ∧
    ∀ c ∈ trail, isBlank c
  head : ∀ c ∈ body.head?, ¬ isBlank c
  last : ∀ c ∈ body.getLast?, ¬ isBlank c

/-- Nothing is dropped in front of a character that stays. -/
theorem dropWhile_of_head {text : List Char} (h : ∀ c ∈ text.head?, ¬ isBlank c) :
    text.dropWhile isBlank = text := by
  cases text with
  | nil => rfl
  | cons c rest => exact List.dropWhile_cons_of_neg (h c rfl)

theorem not_isBlank_head (text : List Char) :
    ∀ c ∈ (text.dropWhile isBlank).head?, ¬ isBlank c := by
  intro c hc
  have hnot := List.head?_dropWhile_not isBlank text
  rw [hc] at hnot
  exact Bool.eq_false_iff.1 hnot

theorem stripped_trim (text : List Char) : Stripped text (trim text) where
  blanks := by
    refine ⟨text.takeWhile isBlank, (trimStart text).rtakeWhile isBlank, ?_,
      fun c hc => List.mem_takeWhile_imp hc, fun c hc => List.mem_rtakeWhile_imp hc⟩
    have hend : trim text ++ (trimStart text).rtakeWhile isBlank = trimStart text :=
      List.rdropWhile_append_rtakeWhile
    rw [List.append_assoc, hend]
    exact List.takeWhile_append_dropWhile.symm
  head := by
    intro c hc
    -- What is dropped at the end leaves the first character first, if it
    -- leaves any.
    have hprefix : trim text <+: trimStart text := List.rdropWhile_prefix isBlank _
    obtain ⟨dropped, hdropped⟩ := hprefix
    refine not_isBlank_head text c ?_
    have hhead : (trimStart text).head? = some c := by
      rw [← hdropped, List.head?_append, hc]
      rfl
    exact hhead
  last := by
    intro c hc
    rw [trim, trimEnd, List.getLast?_reverse] at hc
    exact not_isBlank_head _ c hc

/-- A text has one body. -/
theorem trim_eq_iff {text body : List Char} : trim text = body ↔
      Stripped text body := by
  constructor
  · rintro rfl
    exact stripped_trim text
  · rintro ⟨⟨lead, trail, rfl, hlead, htrail⟩, hhead, hlast⟩
    have hstart :
        trimStart (lead ++ body ++ trail) = trimStart (body ++ trail) := by
      rw [trimStart, List.append_assoc, List.dropWhile_append_of_pos hlead]
      rfl
    rw [trim, hstart]
    cases body with
    | nil =>
        rw [List.nil_append, trimStart, List.dropWhile_eq_nil_iff.2 htrail]
        rfl
    | cons c rest =>
        have hkept : trimStart (c :: rest ++ trail) = c :: rest ++ trail :=
          dropWhile_of_head fun d hd => hhead d hd
        have hreverse : ∀ d ∈ (c :: rest).reverse.head?, ¬ isBlank d := by
          rw [List.head?_reverse]
          exact hlast
        rw [hkept, trimEnd, List.reverse_append,
          List.dropWhile_append_of_pos fun d hd => htrail d (List.mem_reverse.1 hd),
          dropWhile_of_head hreverse, List.reverse_reverse]

example :
    trim ['\uFEFF', '\u2003', 'a', ' ', 'b', '\n'] = ['\uFEFF', '\u2003', 'a',
      ' ', 'b'] := by
  decide

/-- What was stripped stays as it is. -/
theorem trim_trim (text : List Char) : trim (trim text) = trim text :=
  trim_eq_iff.2 ⟨⟨[], [], by simp⟩, (stripped_trim text).head,
    (stripped_trim text).last⟩

/-! ## Segments -/

theorem segments_eq_splitOn (text : List Char) :
    segments text = text.splitOn '.' := by
  induction text with
  | nil => rfl
  | cons c rest ih =>
      have hcons : (c :: rest).splitOn '.' =
          if c == '.' then [] :: rest.splitOn '.'
          else (rest.splitOn '.').modifyHead (List.cons c) :=
        List.splitOnP_cons_eq_if_modifyHead c rest
      rw [segments, hcons, ← ih]
      by_cases hc : c = '.'
      · rw [if_pos hc, if_pos (beq_iff_eq.2 hc)]
      · rw [if_neg hc, if_neg fun h => hc (beq_iff_eq.1 h)]
        cases hs : segments rest with
        | nil => exact absurd hs (segments_ne_nil rest)
        | cons first others => rfl

theorem joined_eq_intercalate (parts : List (List Char)) :
    joined parts = ['.'].intercalate parts := by
  induction parts with
  | nil => rfl
  | cons first rest ih =>
      cases rest with
      | nil => simp [joined]
      | cons second others =>
          rw [joined, ih, List.intercalate_cons_cons, List.append_assoc,
            List.singleton_append]

/-- The pieces of segments that were joined are the segments. -/
theorem segments_joined {parts : List (List Char)} (hne : parts ≠ [])
    (hparts : ∀ s ∈ parts, '.' ∉ s) :
    segments (joined parts) = parts := by
  rw [segments_eq_splitOn, joined_eq_intercalate]
  exact List.splitOn_intercalate '.' hparts hne

/-- The first piece of a text is what stands before its first full stop. -/
theorem segments_eq_cons (text : List Char) :
    ∃ rest, segments text = text.takeWhile (· ≠ '.') :: rest := by
  induction text with
  | nil => exact ⟨[], rfl⟩
  | cons c text ih =>
      obtain ⟨rest, hrest⟩ := ih
      rw [segments]
      by_cases hc : c = '.'
      · exact ⟨segments text, by simp [hc]⟩
      · exact ⟨rest, by simp [hc, hrest]⟩

end Text

namespace Expression

open Text

/-! ## Paths -/

/-- Whether a path may start with the segment. -/
def IsRoot (segment : List Char) : Prop :=
  segment = "payload".toList ∨ segment = "headers".toList

/-- Segments with a full stop between each two. None of them is empty or holds
a stop, and the first is a root. -/
def IsPath (text : List Char) : Prop :=
  ∃ root rest, IsRoot root ∧
    (∀ segment ∈ root :: rest, segment ≠ [] ∧ '.' ∉ segment) ∧
    text = joined (root :: rest)

theorem mem_roots_iff {segment : List Char} : segment ∈ roots ↔ IsRoot segment := by
  simp [roots, IsRoot]

/-- The pieces of a path are its segments. -/
theorem isPath_iff {text : List Char} :
    IsPath text ↔ IsRoot (text.takeWhile (· ≠ '.')) ∧ [] ∉ Text.segments text := by
  obtain ⟨rest, hrest⟩ := segments_eq_cons text
  constructor
  · rintro ⟨root, others, hroot, hsegments, rfl⟩
    rw [segments_joined (List.cons_ne_nil _ _) fun s hs => (hsegments s hs).2]
      at hrest ⊢
    obtain ⟨hfirst, -⟩ := List.cons.inj hrest
    rw [← hfirst]
    exact ⟨hroot, fun hmem => (hsegments [] hmem).1 rfl⟩
  · rintro ⟨hroot, hempty⟩
    refine ⟨_, rest, hroot, fun s hs => ?_, ?_⟩
    · rw [← hrest] at hs
      exact ⟨fun hnil => hempty (hnil ▸ hs), not_stop_mem_of_mem_segments hs⟩
    · rw [← hrest, joined_segments]

/-- A text is parsed as what is left of it without its blanks, and the first
segment is looked at before the others. -/
theorem parse_eq (text : String) {body : List Char} (h : trim text.toList = body) :
    parse text =
    if body.takeWhile (· ≠ '.') ∉ roots then
      .error (.parse text
        ("unknown root '" ++ String.ofList (body.takeWhile (· ≠ '.')) ++ "'"))
    else if [] ∈ Text.segments body then .error (.parse text "empty path segment")
    else .ok ⟨String.ofList body⟩ := by
  obtain ⟨rest, hrest⟩ := segments_eq_cons body
  have hroot : (Text.segments body).headD [] = body.takeWhile (· ≠ '.') := by
    rw [hrest]; rfl
  rw [parse]
  simp only [h, hroot, List.contains_iff_mem]

theorem parse_of_isPath {text : String} (h : IsPath (trim text.toList)) :
    parse text = .ok ⟨String.ofList (trim text.toList)⟩ := by
  obtain ⟨hroot, hempty⟩ := isPath_iff.1 h
  rw [parse_eq text rfl, if_neg (not_not_intro (mem_roots_iff.2 hroot)),
    if_neg hempty]

/-- The parser answers for every text, by what is left of it without the
blanks at its ends. If that is a path then it is the source of the expression,
and it is parsed as the same expression. Any other text is refused, and quoted
with its blanks: for its first segment, up to the first full stop, where that
is no root, and for an empty segment where it is one. -/
theorem parse_grammar (text : String) :
    ∃ body, (∀ other, Stripped text.toList other ↔ other = body) ∧
      (IsPath body ∧ parse text = .ok ⟨String.ofList body⟩ ∧
          parse (String.ofList body) = .ok ⟨String.ofList body⟩ ∨
        ¬ IsPath body ∧ ¬ IsRoot (body.takeWhile (· ≠ '.')) ∧
          parse text = .error (.parse text
            ("unknown root '" ++ String.ofList (body.takeWhile (· ≠ '.')) ++ "'")) ∨
        ¬ IsPath body ∧ IsRoot (body.takeWhile (· ≠ '.')) ∧
          parse text = .error (.parse text "empty path segment")) := by
  refine ⟨trim text.toList, fun other => trim_eq_iff.symm.trans eq_comm, ?_⟩
  by_cases hpath : IsPath (trim text.toList)
  · have hagain :
        trim (String.ofList (trim text.toList)).toList = trim text.toList := by
      rw [String.toList_ofList, trim_trim]
    refine .inl ⟨hpath, parse_of_isPath hpath, ?_⟩
    rw [parse_of_isPath (by rwa [hagain]), hagain]
  · refine .inr ?_
    rw [parse_eq text rfl]
    by_cases hroot : IsRoot ((trim text.toList).takeWhile (· ≠ '.'))
    · have hempty : [] ∈ Text.segments (trim text.toList) := by
        by_contra hnot
        exact hpath (isPath_iff.2 ⟨hroot, hnot⟩)
      rw [if_neg (not_not_intro (mem_roots_iff.2 hroot)), if_pos hempty]
      exact .inr ⟨hpath, hroot, rfl⟩
    · rw [if_pos fun hmem => hroot (mem_roots_iff.1 hmem)]
      exact .inl ⟨hpath, hroot, rfl⟩

example : parse " headers. a\n" = .ok ⟨"headers. a"⟩ := by rfl

example : parse ".." = .error (.parse ".." "unknown root ''") := by rfl

end Expression

end FlowAssembly
