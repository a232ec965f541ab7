/-!
# Dotted segments

A path is written as segments with a full stop between each two. `segments`
cuts a text at every full stop and `joined` puts the stops back, so that no
character is lost: a text without a stop is one segment, and two stops in a
row have an empty segment between them.
-/

namespace FlowAssembly.Text

/-- The pieces of a text between its full stops; there is always at least
one. -/
def segments : List Char → List (List Char)
  | [] => [[]]
  | c :: rest =>
      if c = '.' then [] :: segments rest
      else
        match segments rest with
        | [] => [[c]]
        | first :: others => (c :: first) :: others

/-- The segments with a full stop between each two. -/
def joined : List (List Char) → List Char
  | [] => []
  | [last] => last
  | first :: second :: others => first ++ '.' :: joined (second :: others)

theorem segments_ne_nil (text : List Char) : segments text ≠ [] := by
  cases text with
  | nil => simp [segments]
  | cons c rest =>
      unfold segments
      split
      · simp
      · split <;> simp

/-- Cutting a text and joining the pieces gives the text back. -/
theorem joined_segments (text : List Char) : joined (segments text) = text := by
  induction text with
  | nil => rfl
  | cons c rest ih =>
      unfold segments
      split
      · next h =>
        subst h
        cases hs : segments rest with
        | nil => exact absurd hs (segments_ne_nil rest)
        | cons first others => rw [hs] at ih; simp [joined, ih]
      · cases hs : segments rest with
        | nil => exact absurd hs (segments_ne_nil rest)
        | cons first others =>
            rw [hs] at ih
            cases others with
            | nil => simpa [joined] using ih
            | cons second more =>
                simp only [joined, List.cons_append]; rw [joined] at ih; rw [ih]

/-- No segment holds a full stop. -/
theorem not_stop_mem_of_mem_segments {text segment : List Char}
    (h : segment ∈ segments text) :
    '.' ∉ segment := by
  induction text generalizing segment with
  | nil => simp [segments] at h; simp [h]
  | cons c rest ih =>
      unfold segments at h
      split at h
      · rcases List.mem_cons.1 h with rfl | h
        · simp
        · exact ih h
      · next hc =>
        cases hs : segments rest with
        | nil => exact absurd hs (segments_ne_nil rest)
        | cons first others =>
            rw [hs] at h ih
            rcases List.mem_cons.1 h with rfl | h
            · intro hmem
              rcases List.mem_cons.1 hmem with heq | hmem
              · exact hc heq.symm
              · exact ih (List.mem_cons_self) hmem
            · exact ih (List.mem_cons_of_mem _ h)

end FlowAssembly.Text
