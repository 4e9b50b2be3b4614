import DecisionPoint.Text.Blank
import DecisionPoint.Text.Digit
import Mathlib.Algebra.Group.Nat.Defs

/-!
Digit runs and blanks under reading: a padded number reads back as itself, and
trimming leaves a text alone that begins and ends with no blank.
-/

namespace DecisionPoint.Text

/-! ## Digits -/

theorem digitsValue_digits (n : Nat) : digitsValue (digits n) = n :=
  Nat.ofDigitChars_ten_toDigits

theorem isDigit_of_mem_digits {n : Nat} {c : Char} (h : c ∈ digits n) : c.isDigit = true :=
  Nat.isDigit_of_mem_toDigits (by decide) (by decide) h

theorem digits_ne_nil (n : Nat) : digits n ≠ [] :=
  Nat.toDigits_ne_nil

private theorem digitChar_ne_zero : ∀ d, d < 10 → 0 < d → d.digitChar ≠ '0' := by
  decide

/-- A number has no superfluous zero in front: its first digit is zero only
where it is the one digit. -/
theorem head_digits_ne_zero (n : Nat) (h : (digits n).length ≠ 1) :
    (digits n).head? ≠ some '0' := by
  induction n using Nat.strongRecOn with
  | _ n ih =>
      by_cases hsmall : n < 10
      · exact absurd (by simp [digits, Nat.toDigits_of_lt_base hsmall]) h
      · have hsplit : digits n = digits (n / 10) ++ [(n % 10).digitChar] :=
          Nat.toDigits_of_base_le (by decide) (by omega)
        have hhead : (digits n).head? = (digits (n / 10)).head? := by
          rw [hsplit, List.head?_append]
          cases hfront : digits (n / 10) with
          | nil => exact absurd hfront (digits_ne_nil _)
          | cons d ds => rfl
        rw [hhead]
        by_cases hlead : n / 10 < 10
        · simp only [digits, Nat.toDigits_of_lt_base hlead, List.head?_cons]
          intro heq
          exact digitChar_ne_zero (n / 10) hlead (by omega) (Option.some.inj heq)
        · apply ih (n / 10) (by omega)
          intro hone
          have hshort : n / 10 < 10 ^ 1 :=
            (Nat.length_toDigits_le_iff (by decide) (by decide)).mp (Nat.le_of_eq hone)
          omega

theorem digitsValue_padded (width n : Nat) : digitsValue (padded width n) = n := by
  simp only [digitsValue, padded, Nat.ofDigitChars_append, Nat.ofDigitChars_replicate_zero,
    Nat.mul_zero]
  exact digitsValue_digits n

theorem isDigit_of_mem_padded {width n : Nat} {c : Char} (h : c ∈ padded width n) :
    c.isDigit = true := by
  rcases List.mem_append.mp h with hzero | hdigit
  · rw [(List.mem_replicate.mp hzero).2]
    decide
  · exact isDigit_of_mem_digits hdigit

theorem le_length_padded (width n : Nat) : width ≤ (padded width n).length := by
  simp only [padded, List.length_append, List.length_replicate]
  omega

theorem length_padded {width n : Nat} (hwidth : 0 < width) (h : n < Nat.pow 10 width) :
    (padded width n).length = width := by
  have hlength : (digits n).length ≤ width :=
    (Nat.length_toDigits_le_iff (by decide) hwidth).2 h
  simp only [padded, List.length_append, List.length_replicate]
  omega

/-! ## Reading a run -/

/-- Nothing that goes on a run of digits. -/
def EndsRun (rest : List Char) : Prop :=
  ∀ c ∈ rest.head?, c.isDigit = false

theorem endsRun_nil : EndsRun [] := by
  intro c hc
  cases hc

theorem endsRun_cons {c : Char} {rest : List Char} (h : c.isDigit = false) :
    EndsRun (c :: rest) := by
  intro d hd
  cases hd
  exact h

theorem takeWhile_endsRun {rest : List Char} (h : EndsRun rest) :
    rest.takeWhile Char.isDigit = [] := by
  cases rest with
  | nil => rfl
  | cons c rest => simp [h c rfl]

theorem takeWhile_run {ds rest : List Char} (hds : ∀ c ∈ ds, c.isDigit = true)
    (hrest : EndsRun rest) : (ds ++ rest).takeWhile Char.isDigit = ds := by
  rw [List.takeWhile_append_of_pos hds, takeWhile_endsRun hrest, List.append_nil]

theorem dropWhile_run {ds rest : List Char} (hds : ∀ c ∈ ds, c.isDigit = true)
    (hrest : EndsRun rest) : (ds ++ rest).dropWhile Char.isDigit = rest := by
  rw [List.dropWhile_append_of_pos hds]
  cases rest with
  | nil => rfl
  | cons c rest => simp [hrest c rfl]

/-- A run of digits is read to its end, where the columns allow it. -/
theorem takeWhile_take_run {most : Nat} {ds rest : List Char}
    (hds : ∀ c ∈ ds, c.isDigit = true) (hmost : ds.length ≤ most)
    (hend : ds.length = most ∨ EndsRun rest) :
    ((ds ++ rest).take most).takeWhile Char.isDigit = ds := by
  rw [List.take_append, List.take_of_length_le hmost]
  apply takeWhile_run hds
  rcases hend with hfull | hrest
  · rw [hfull, Nat.sub_self, List.take_zero]
    exact endsRun_nil
  · intro c hc
    apply hrest
    cases rest with
    | nil => simp at hc
    | cons d rest =>
      cases hroom : most - ds.length with
      | zero => simp [hroom] at hc
      | succ room => simpa [hroom] using hc

/-- A run of digits is read up to its end, which the greatest width or the
next character sets. -/
theorem readDigits_append {least most : Nat} {ds rest : List Char}
    (hds : ∀ c ∈ ds, c.isDigit = true) (hleast : least ≤ ds.length) (hmost : ds.length ≤ most)
    (hend : ds.length = most ∨ EndsRun rest) :
    readDigits least most (ds ++ rest) = some (digitsValue ds, rest) := by
  simp only [readDigits, takeWhile_take_run hds hmost hend, List.drop_left]
  rw [if_neg (by omega)]

/-! ## Numbers of few digits -/

theorem ofDigitChars_lt {ds : List Char} (hds : ∀ c ∈ ds, c.isDigit = true) (start : Nat) :
    Nat.ofDigitChars 10 ds start < (start + 1) * 10 ^ ds.length := by
  induction ds generalizing start with
  | nil => exact Nat.lt_of_lt_of_eq (Nat.lt_succ_self start) (Nat.mul_one _).symm
  | cons d ds ih =>
      have hdigit := hds d List.mem_cons_self
      simp only [Char.isDigit, Bool.and_eq_true, decide_eq_true_eq, UInt32.le_iff_toNat_le]
        at hdigit
      have hgreatest : d.toNat - '0'.toNat ≤ 9 := Nat.sub_le_of_le_add hdigit.2
      have hrest := ih (fun c hc => hds c (List.mem_cons_of_mem _ hc))
        (10 * start + (d.toNat - '0'.toNat))
      rw [Nat.ofDigitChars_cons, List.length_cons, Nat.pow_succ, Nat.mul_comm (10 ^ _),
        ← Nat.mul_assoc]
      exact Nat.lt_of_lt_of_le hrest (Nat.mul_le_mul_right _ (by omega))

theorem digitsValue_lt {ds : List Char} {most : Nat} (hds : ∀ c ∈ ds, c.isDigit = true)
    (hmost : ds.length ≤ most) : digitsValue ds < 10 ^ most := by
  have hvalue := ofDigitChars_lt hds 0
  rw [Nat.zero_add, Nat.one_mul] at hvalue
  exact Nat.lt_of_lt_of_le hvalue (Nat.pow_le_pow_right (by decide) hmost)

/-- A number of few digits is small. -/
theorem readDigits_lt {least most n : Nat} {cs rest : List Char}
    (h : readDigits least most cs = some (n, rest)) : n < 10 ^ most := by
  simp only [readDigits] at h
  split at h
  · cases h
  · cases h
    apply digitsValue_lt (List.all_eq_true.mp List.all_takeWhile)
    exact Nat.le_trans (List.takeWhile_prefix _).length_le (List.length_take_le _ _)

/-! ## Blanks -/

theorem isBlank_of_isDigit {c : Char} (h : c.isDigit = true) : isBlank c = false := by
  simp only [Char.isDigit, Bool.and_eq_true, decide_eq_true_eq, UInt32.le_iff_toNat_le] at h
  have hlow : 48 ≤ c.toNat := h.1
  have hhigh : c.toNat ≤ 57 := h.2
  simp only [isBlank, Bool.or_eq_false_iff, Bool.and_eq_false_iff, beq_eq_false_iff_ne,
    decide_eq_false_iff_not]
  omega

theorem skipBlank_cons {c : Char} (cs : List Char) (h : isBlank c = false) :
    skipBlank (c :: cs) = c :: cs := by
  simp [skipBlank, h]

theorem skipBlank_eq_self {cs : List Char} (h : ∀ c ∈ cs.head?, isBlank c = false) :
    skipBlank cs = cs := by
  cases cs with
  | nil => rfl
  | cons c cs => exact skipBlank_cons cs (h c rfl)

theorem trimBlank_eq_self {cs : List Char} (hhead : ∀ c ∈ cs.head?, isBlank c = false)
    (hlast : ∀ c ∈ cs.getLast?, isBlank c = false) : trimBlank cs = cs := by
  rw [trimBlank, skipBlank_eq_self hhead, skipBlank_eq_self, List.reverse_reverse]
  rwa [List.head?_reverse]

end DecisionPoint.Text
