import FlowAssembly.Text.Numeral
import Mathlib.Data.List.Basic

/-!
# What a numeral denotes

A number is written in one way without a sign and without zeros in front. The
reader of numerals takes any number of zeros ahead of that and a plus sign
ahead of the zeros (`Denotes`), and nothing else: a row of digits is zeros and
then the digits of its value, since a digit behind a number that is not zero
is the last digit of a number.
-/

namespace FlowAssembly.Text

/-- The text is how the number is written, behind any number of zeros. -/
def DigitsOf (text : List Char) (n : Nat) : Prop :=
  ∃ zeros, text = List.replicate zeros '0' ++ Nat.toDigits 10 n

/-- The text is how the number is written, behind any number of zeros and
perhaps a plus sign. -/
def Denotes (text : List Char) (n : Nat) : Prop :=
  DigitsOf text n ∨ ∃ digits, text = '+' :: digits ∧ DigitsOf digits n

variable {text : List Char} {c : Char} {n limit : Nat}

theorem isDecimalDigit_eq (c : Char) : isDecimalDigit c = c.isDigit := by
  simp [isDecimalDigit, Char.isDigit, Char.le_def]

theorem isDecimalDigit_iff : isDecimalDigit c ↔ 48 ≤ c.toNat ∧ c.toNat ≤ 57 := by
  rw [isDecimalDigit, Bool.and_eq_true, decide_eq_true_eq, decide_eq_true_eq]
  rfl

/-- A digit is written for the number that it counts. -/
theorem digitChar_of_isDecimalDigit (h : isDecimalDigit c) :
    Nat.digitChar (c.toNat - '0'.toNat) = c := by
  obtain ⟨hlow, hhigh⟩ := isDecimalDigit_iff.1 h
  have hzero : '0'.toNat = 48 := rfl
  have hlt : c.toNat - '0'.toNat < 10 := by omega
  refine Char.toNat_inj.1 ?_
  rw [Nat.toNat_digitChar_of_lt_ten hlt]
  omega

theorem digitsValueFrom_cons (n : Nat) (c : Char) (rest : List Char) :
    digitsValueFrom n (c :: rest) =
      digitsValueFrom (10 * n + (c.toNat - '0'.toNat)) rest := by
  rw [digitsValueFrom, List.foldl_cons, digitsValueFrom]

/-- A row of digits behind a number that is not zero makes a number. -/
theorem toDigits_append_digits (hn : 0 < n)
    (hdigits : ∀ c ∈ text, isDecimalDigit c) :
    Nat.toDigits 10 n ++ text = Nat.toDigits 10 (digitsValueFrom n text) := by
  induction text generalizing n with
  | nil => exact List.append_nil _
  | cons c rest ih =>
      have hc := hdigits c List.mem_cons_self
      obtain ⟨hlow, hhigh⟩ := isDecimalDigit_iff.1 hc
      have hlt : c.toNat - '0'.toNat < 10 := by
        have hzero : '0'.toNat = 48 := rfl
        omega
      calc
        Nat.toDigits 10 n ++ c :: rest = Nat.toDigits 10 n ++ [c] ++ rest := by
          rw [List.append_assoc, List.singleton_append]
        _ = Nat.toDigits 10 n ++ Nat.toDigits 10 (c.toNat - '0'.toNat) ++ rest := by
          rw [Nat.toDigits_of_lt_base hlt, digitChar_of_isDecimalDigit hc]
        _ = Nat.toDigits 10 (10 * n + (c.toNat - '0'.toNat)) ++ rest := by
          rw [Nat.toDigits_append_toDigits (by decide) hn hlt]
        _ = Nat.toDigits 10 (digitsValueFrom n (c :: rest)) := by
          rw [ih (by omega) fun d hd => hdigits d (List.mem_cons_of_mem _ hd),
            digitsValueFrom_cons]

theorem digitsValue_zero (rest : List Char) :
    digitsValue ('0' :: rest) = digitsValue rest := by
  rw [digitsValue, digitsValueFrom_cons]
  rfl

/-- A row of digits is zeros and then the digits of its value. -/
theorem digitsOf_value (hne : text ≠ []) (hdigits : ∀ c ∈ text, isDecimalDigit c) :
    DigitsOf text (digitsValue text) := by
  induction text with
  | nil => exact absurd rfl hne
  | cons c rest ih =>
      have hc := hdigits c List.mem_cons_self
      have hrest : ∀ d ∈ rest, isDecimalDigit d :=
        fun d hd => hdigits d (List.mem_cons_of_mem _ hd)
      by_cases hzero : c = '0'
      · subst hzero
        by_cases hnil : rest = []
        · subst hnil
          exact ⟨0, rfl⟩
        · obtain ⟨zeros, hzeros⟩ := ih hnil hrest
          refine ⟨zeros + 1, ?_⟩
          rw [digitsValue_zero, List.replicate_succ, List.cons_append, ← hzeros]
      · obtain ⟨hlow, hhigh⟩ := isDecimalDigit_iff.1 hc
        have hfirst : '0'.toNat = 48 := rfl
        have hne : c.toNat ≠ '0'.toNat := fun h => hzero (Char.toNat_inj.1 h)
        have hpos : 0 < c.toNat - '0'.toNat := by omega
        have hlt : c.toNat - '0'.toNat < 10 := by omega
        have hrow := toDigits_append_digits hpos hrest
        rw [Nat.toDigits_of_lt_base hlt, digitChar_of_isDecimalDigit hc,
          List.singleton_append] at hrow
        refine ⟨0, ?_⟩
        rw [digitsValue, digitsValueFrom_cons, Nat.mul_zero, Nat.zero_add, ← hrow]
        rfl

theorem isDecimalDigit_of_digitsOf (h : DigitsOf text n) (hc : c ∈ text) :
    isDecimalDigit c := by
  obtain ⟨zeros, rfl⟩ := h
  rcases List.mem_append.1 hc with hc | hc
  · obtain rfl := List.eq_of_mem_replicate hc
    rfl
  · rw [isDecimalDigit_eq]
    exact Nat.isDigit_of_mem_toDigits (by decide) (by decide) hc

theorem digitsValue_of_digitsOf (h : DigitsOf text n) : digitsValue text = n := by
  obtain ⟨zeros, rfl⟩ := h
  have hvalue : ∀ digits, digitsValue digits = Nat.ofDigitChars 10 digits 0 :=
    fun _ => rfl
  rw [hvalue, Nat.ofDigitChars_append, Nat.ofDigitChars_replicate_zero,
    Nat.mul_zero, Nat.ofDigitChars_toDigits (by decide) (by decide)]

theorem digits?_eq_some_iff : digits? text = some n ↔ DigitsOf text n := by
  constructor
  · intro h
    unfold digits? at h
    split at h
    · next hrow =>
        obtain rfl := Option.some.inj h
        exact digitsOf_value hrow.1 (List.all_eq_true.1 hrow.2)
    · cases h
  · intro h
    have hne : text ≠ [] := by
      obtain ⟨zeros, rfl⟩ := h
      exact List.append_ne_nil_of_right_ne_nil _ Nat.toDigits_ne_nil
    have hall : text.all isDecimalDigit = true :=
      List.all_eq_true.2 fun c hc => isDecimalDigit_of_digitsOf h hc
    rw [digits?, if_pos ⟨hne, hall⟩, digitsValue_of_digitsOf h]

/-- The reader of numerals reads what denotes a number up to the limit. -/
theorem bounded?_eq_some_iff : bounded? limit text = some n ↔
      Denotes text n ∧ n ≤ limit := by
  have hplus : ¬ isDecimalDigit '+' := by decide
  unfold bounded?
  rw [Option.filter_eq_some_iff, digits?_eq_some_iff, decide_eq_true_eq]
  refine and_congr_left' ?_
  split
  · next rest =>
      constructor
      · intro h
        exact .inr ⟨rest, rfl, h⟩
      · rintro (h | ⟨digits, hdigits, h⟩)
        · exact absurd (isDecimalDigit_of_digitsOf h List.mem_cons_self) hplus
        · obtain rfl := (List.cons.inj hdigits).2
          exact h
  · next hnone =>
      constructor
      · exact .inl
      · rintro (h | ⟨digits, rfl, -⟩)
        · exact h
        · exact absurd rfl (hnone digits)

example : bounded? limit64 "+007".toList = some 7 := by decide +kernel

example : bounded? limit64 "18446744073709551616".toList = none := by decide +kernel

end FlowAssembly.Text
