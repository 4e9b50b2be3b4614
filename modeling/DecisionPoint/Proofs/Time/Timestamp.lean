import DecisionPoint.Proofs.Text.Digits
import DecisionPoint.Proofs.Time.Calendar
import DecisionPoint.Time.Timestamp

/-!
Instants and their two written forms. The text of the wire profile reads back
as the instant cut to milliseconds where the year has four digits, and not at
all in any other year; the text of a bound reads back as the instant itself
where the year is one that a text may name.
-/

namespace DecisionPoint.Time.Instant

open Text

/-! ## The fields of an instant -/

theorem secondOfDay_lt (t : Instant) : t.secondOfDay < 86400 := by
  simp only [secondOfDay, secondsPerDay]
  omega

theorem hour_lt (t : Instant) : t.secondOfDay / 3600 < 24 := by
  have := t.secondOfDay_lt
  omega

theorem seconds_eq (t : Instant) :
    t.seconds = t.day * secondsPerDay + t.secondOfDay := by
  simp only [day, secondOfDay, secondsPerDay]
  omega

/-- The second that is written: 60 in a leap second, which ends a minute. -/
theorem writtenSecond (t : Instant) :
    (t.nanos < 1000000000 ∧ t.secondOfDay % 60 + t.nanos / nanosPerSecond = t.secondOfDay % 60) ∨
      (1000000000 ≤ t.nanos ∧ t.secondOfDay % 60 = 59 ∧
        t.secondOfDay % 60 + t.nanos / nanosPerSecond = 60) := by
  have hrule := t.leap_rule
  simp only [secondOfDay, secondsPerDay, nanosPerSecond]
  omega

theorem writtenSecond_le (t : Instant) :
    t.secondOfDay % 60 + t.nanos / nanosPerSecond ≤ 60 := by
  rcases t.writtenSecond with ⟨-, h⟩ | ⟨-, -, h⟩ <;> omega

def isYear (year : Int) : Bool :=
  yearRange.1 ≤ year && year ≤ yearRange.2

theorem isYear_iff {year : Int} : isYear year = true ↔ -262143 ≤ year ∧ year ≤ 262142 := by
  rw [isYear, Bool.and_eq_true, decide_eq_true_eq, decide_eq_true_eq]
  exact Iff.rfl

/-- The written fields and the nanoseconds of the second give an instant of the
same second back, a leap second included. -/
theorem ofFields?_written {t u : Instant} (hseconds : u.seconds = t.seconds)
    (hleap : u.nanos / nanosPerSecond = t.nanos / nanosPerSecond) :
    ofFields? (Date.ofDay t.day) (t.secondOfDay / 3600) (t.secondOfDay / 60 % 60)
      (t.secondOfDay % 60 + t.nanos / nanosPerSecond) (u.nanos % nanosPerSecond) 0 =
      if isYear (Date.ofDay t.day).year then some u else none := by
  have hclock : t.secondOfDay / 3600 * 3600 + t.secondOfDay / 60 % 60 * 60 +
      min (t.secondOfDay % 60 + t.nanos / nanosPerSecond) 59 = t.secondOfDay := by
    rcases t.writtenSecond with ⟨-, h⟩ | ⟨-, hlast, h⟩ <;> rw [h] <;> omega
  have hfields : (Date.ofDay t.day).isValid = true ∧ t.secondOfDay / 3600 < 24 ∧
      t.secondOfDay / 60 % 60 < 60 ∧ t.secondOfDay % 60 + t.nanos / nanosPerSecond ≤ 60 ∧
      u.nanos % nanosPerSecond < nanosPerSecond :=
    ⟨Date.isValid_ofDay _, t.hour_lt, Nat.mod_lt _ (by decide), t.writtenSecond_le,
      Nat.mod_lt _ (by decide)⟩
  have hwhole : (Date.ofDay t.day).toDay * (secondsPerDay : Int) + (t.secondOfDay : Int) - 0 =
      u.seconds := by
    rw [Date.toDay_ofDay, hseconds, t.seconds_eq]
    omega
  have hday : u.seconds / (secondsPerDay : Int) = t.day := by
    rw [hseconds]
    rfl
  have hnanos : (if t.secondOfDay % 60 + t.nanos / nanosPerSecond = 60 then
      nanosPerSecond + u.nanos % nanosPerSecond else u.nanos % nanosPerSecond) = u.nanos := by
    have hrule := u.leap_rule
    rcases t.writtenSecond with ⟨hplain, h⟩ | ⟨hrun, -, h⟩
    · have hother : t.secondOfDay % 60 ≠ 60 := by omega
      simp only [nanosPerSecond] at hleap
      rw [h, if_neg hother, nanosPerSecond]
      omega
    · simp only [nanosPerSecond] at hleap
      rw [h, if_pos rfl, nanosPerSecond]
      omega
  have hparts : ofParts? u.seconds u.nanos = some u := dif_pos u.leap_rule
  simp only [ofFields?, hfields, and_self, if_true, hclock, hwhole, hday, hnanos, hparts]
  rfl

/-! ## The wire profile -/

theorem isDecimalDigit_of_isDigit {c : Char} (h : c.isDigit = true) :
    isDecimalDigit c = true := by
  simp only [Char.isDigit, Bool.and_eq_true, decide_eq_true_eq, UInt32.le_iff_toNat_le] at h
  have hlow : 48 ≤ c.toNat := h.1
  have hhigh : c.toNat ≤ 57 := h.2
  simp only [isDecimalDigit, decimalZeros, List.any_cons, Bool.or_eq_true, Bool.and_eq_true,
    decide_eq_true_eq]
  omega

private theorem padded_two {n : Nat} (h : n < 100) :
    ∃ a b, padded 2 n = [a, b] ∧ a.isDigit = true ∧ b.isDigit = true := by
  have hdigits := @isDigit_of_mem_padded 2 n
  have hlength := @length_padded 2 n (by decide) h
  generalize padded 2 n = ds at *
  match ds, hlength with
  | [a, b], _ => exact ⟨a, b, rfl, hdigits (by simp), hdigits (by simp)⟩

private theorem padded_three {n : Nat} (h : n < 1000) :
    ∃ a b c, padded 3 n = [a, b, c] ∧ a.isDigit = true ∧ b.isDigit = true ∧
      c.isDigit = true := by
  have hdigits := @isDigit_of_mem_padded 3 n
  have hlength := @length_padded 3 n (by decide) h
  generalize padded 3 n = ds at *
  match ds, hlength with
  | [a, b, c], _ =>
    exact ⟨a, b, c, rfl, hdigits (by simp), hdigits (by simp), hdigits (by simp)⟩

private theorem padded_four {n : Nat} (h : n < 10000) :
    ∃ a b c d, padded 4 n = [a, b, c, d] ∧ a.isDigit = true ∧ b.isDigit = true ∧
      c.isDigit = true ∧ d.isDigit = true := by
  have hdigits := @isDigit_of_mem_padded 4 n
  have hlength := @length_padded 4 n (by decide) h
  generalize padded 4 n = ds at *
  match ds, hlength with
  | [a, b, c, d], _ =>
    exact ⟨a, b, c, d, rfl, hdigits (by simp), hdigits (by simp), hdigits (by simp),
      hdigits (by simp)⟩

/-- The text of fields in the columns of the profile. -/
def columns (year month day hour minute second millis : Nat) : List Char :=
  padded 4 year ++ '-' :: padded 2 month ++ '-' :: padded 2 day ++ 'T' :: padded 2 hour ++
    ':' :: padded 2 minute ++ ':' :: padded 2 second ++ '.' :: padded 3 millis ++ ['Z']

/-- A text in the profile is read by its columns. -/
theorem ofWireText?_columns {year month day hour minute second millis : Nat}
    (hyear : year < 10000) (hmonth : month < 100) (hday : day < 100) (hhour : hour < 100)
    (hminute : minute < 100) (hsecond : second < 100) (hmillis : millis < 1000) :
    ofWireText? (columns year month day hour minute second millis) =
      ofFields? ⟨year, month, day⟩ hour minute second (millis * 1000000) 0 := by
  have vyear := digitsValue_padded 4 year
  have vmonth := digitsValue_padded 2 month
  have vday := digitsValue_padded 2 day
  have vhour := digitsValue_padded 2 hour
  have vminute := digitsValue_padded 2 minute
  have vsecond := digitsValue_padded 2 second
  have vmillis := digitsValue_padded 3 millis
  obtain ⟨y1, y2, y3, y4, ey, hy1, hy2, hy3, hy4⟩ := padded_four hyear
  obtain ⟨m1, m2, em, hm1, hm2⟩ := padded_two hmonth
  obtain ⟨d1, d2, ed, hd1, hd2⟩ := padded_two hday
  obtain ⟨h1, h2, eh, hh1, hh2⟩ := padded_two hhour
  obtain ⟨n1, n2, en, hn1, hn2⟩ := padded_two hminute
  obtain ⟨s1, s2, es, hs1, hs2⟩ := padded_two hsecond
  obtain ⟨f1, f2, f3, ef, hf1, hf2, hf3⟩ := padded_three hmillis
  rw [ey] at vyear
  rw [em] at vmonth
  rw [ed] at vday
  rw [eh] at vhour
  rw [en] at vminute
  rw [es] at vsecond
  rw [ef] at vmillis
  have htext : columns year month day hour minute second millis =
      [y1, y2, y3, y4, '-', m1, m2, '-', d1, d2, 'T', h1, h2, ':', n1, n2, ':', s1, s2, '.',
        f1, f2, f3, 'Z'] := by
    rw [columns, ey, em, ed, eh, en, es, ef]
    rfl
  have htrim : trimBlank (columns year month day hour minute second millis) =
      columns year month day hour minute second millis := by
    apply trimBlank_eq_self
    · rw [htext]
      intro c hc
      cases hc
      exact isBlank_of_isDigit hy1
    · rw [htext]
      intro c hc
      cases hc
      exact (by decide : isBlank 'Z' = false)
  have hshape : profile = ['0', '0', '0', '0', '-', '0', '0', '-', '0', '0', 'T', '0', '0', ':',
      '0', '0', ':', '0', '0', '.', '0', '0', '0', 'Z'] := rfl
  have hprofile : hasProfile (columns year month day hour minute second millis) = true := by
    rw [htext, hasProfile, hshape]
    simp [isDecimalDigit_of_isDigit, *]
  rw [ofWireText?, htrim, if_pos hprofile, htext]
  simp [ofColumns?, column?, *]

/-- In a year of four digits the wire text has the columns of the profile. -/
theorem wireText_eq {t : Instant} (h : 0 ≤ (Date.ofDay t.day).year)
    (hlast : (Date.ofDay t.day).year ≤ 9999) :
    t.wireText = columns (Date.ofDay t.day).year.toNat (Date.ofDay t.day).month
      (Date.ofDay t.day).day (t.secondOfDay / 3600) (t.secondOfDay / 60 % 60)
      (t.secondOfDay % 60 + t.nanos / nanosPerSecond) (t.nanos % nanosPerSecond / 1000000) := by
  have habs : (Date.ofDay t.day).year.natAbs = (Date.ofDay t.day).year.toNat := by omega
  simp only [wireText, textToSecond, yearText, if_pos (And.intro h hlast), habs, columns,
    List.append_assoc, List.cons_append]

/-- Whether a year has the four digits of the wire profile. -/
def isWireYear (year : Int) : Bool :=
  0 ≤ year && year ≤ 9999

/-- A year with a sign is no year of the wire. -/
theorem ofWireText?_signed {sign : Char} (hsign : sign = '+' ∨ sign = '-') (cs : List Char) :
    ofWireText? (sign :: (cs ++ ['Z'])) = none := by
  have htrim : trimBlank (sign :: (cs ++ ['Z'])) = sign :: (cs ++ ['Z']) := by
    apply trimBlank_eq_self
    · intro c hc
      cases hc
      rcases hsign with rfl | rfl <;> decide
    · intro c hc
      rw [← List.cons_append, List.getLast?_concat] at hc
      cases hc
      decide
  have hprofile : hasProfile (sign :: (cs ++ ['Z'])) = false := by
    have hdigit : isDecimalDigit sign = false := by
      rcases hsign with rfl | rfl <;> decide
    obtain ⟨rest, hshape⟩ : ∃ rest, profile = '0' :: rest := ⟨_, rfl⟩
    rw [hasProfile, hshape, List.zip_cons_cons, List.all_cons]
    simp only [if_true, hdigit, Bool.false_and, Bool.and_false]
  have hrun : readDigits 4 4 (sign :: (cs ++ ['Z'])) = none := by
    have hdigit : sign.isDigit = false := by
      rcases hsign with rfl | rfl <;> decide
    simp [readDigits, hdigit]
  rw [ofWireText?, htrim, hprofile, if_neg (by decide), ofRfc3339?, hrun]
  rfl

/-- What was written in the wire profile reads back cut to milliseconds, and
the text of a year that the profile has no room for does not read back. -/
theorem ofWireText?_wireText (t : Instant) :
    ofWireText? t.wireText =
      if isWireYear (Date.ofDay t.day).year then some t.truncateToMillis else none := by
  by_cases hyear : 0 ≤ (Date.ofDay t.day).year ∧ (Date.ofDay t.day).year ≤ 9999
  · have hwire : isWireYear (Date.ofDay t.day).year = true := by
      simpa [isWireYear] using hyear
    have hvalid := Date.isValid_ofDay t.day
    simp only [Date.isValid, Bool.and_eq_true, decide_eq_true_eq] at hvalid
    have hmonth := Date.daysInMonth_le (Date.ofDay t.day).year (Date.ofDay t.day).month
    have hhour := t.hour_lt
    have hsecond := t.writtenSecond_le
    have hyearBack : (((Date.ofDay t.day).year.toNat : Int)) = (Date.ofDay t.day).year := by omega
    have hcut : t.nanos % nanosPerSecond / 1000000 * 1000000 =
        t.truncateToMillis.nanos % nanosPerSecond := by
      simp only [truncateToMillis, nanosPerSecond]
      omega
    have hfields := ofFields?_written (u := t.truncateToMillis) (t := t) rfl (by
      simp only [truncateToMillis, nanosPerSecond]
      omega)
    have hnamed : isYear (Date.ofDay t.day).year = true := by
      rw [isYear_iff]
      omega
    rw [wireText_eq hyear.1 hyear.2, ofWireText?_columns (by omega) (by omega) (by omega)
      (by omega) (by omega) (by omega) (by simp only [nanosPerSecond]; omega), hyearBack, hcut]
    rw [hnamed, if_pos rfl] at hfields
    rw [hwire, if_pos rfl]
    exact hfields
  · have hwire : isWireYear (Date.ofDay t.day).year = false := by
      simpa [isWireYear] using hyear
    rw [hwire, if_neg (by decide)]
    simp only [wireText, textToSecond, yearText, if_neg hyear, List.cons_append]
    apply ofWireText?_signed
    split
    · exact .inr rfl
    · exact .inl rfl

/-! ## The text of a bound -/

theorem skipBlank_padded {width : Nat} (hwidth : 0 < width) (n : Nat) (rest : List Char) :
    skipBlank (padded width n ++ rest) = padded width n ++ rest := by
  have hlength := le_length_padded width n
  have hdigits := @isDigit_of_mem_padded width n
  generalize padded width n = ds at *
  cases ds with
  | nil => simp only [List.length_nil] at hlength; omega
  | cons d ds => exact skipBlank_cons _ (isBlank_of_isDigit (hdigits List.mem_cons_self))

theorem readShort_padded {n : Nat} (h : n < 100) (rest : List Char) :
    readShort (padded 2 n ++ rest) = some (n, rest) := by
  have hlength := @length_padded 2 n (by decide) h
  rw [readShort, skipBlank_padded (by decide), readDigits_append (fun _ => isDigit_of_mem_padded)
    (by omega) (Nat.le_of_eq hlength) (.inl hlength), digitsValue_padded]

theorem readShortAfter_padded {c : Char} (hblank : isBlank c = false) {n : Nat} (h : n < 100)
    (rest : List Char) : readShortAfter c (c :: (padded 2 n ++ rest)) = some (n, rest) := by
  rw [readShortAfter, skipBlank_cons _ hblank]
  simp only [readMark, if_true, Option.bind_eq_bind, Option.bind_some]
  exact readShort_padded h rest

theorem readRun_year (n : Nat) (rest : List Char) :
    readDigits 1 (padded 4 n ++ '-' :: rest).length (padded 4 n ++ '-' :: rest) =
      some (n, '-' :: rest) := by
  have hleast := le_length_padded 4 n
  rw [readDigits_append (fun _ => isDigit_of_mem_padded) (by omega)
    (by simp only [List.length_append]; omega) (.inr (endsRun_cons (by decide))),
    digitsValue_padded]

theorem readYear_yearText (year : Int) (rest : List Char) :
    readYear (yearText year ++ '-' :: rest) = some (year, '-' :: rest) := by
  by_cases hplain : 0 ≤ year ∧ year ≤ 9999
  · have hshort : year.natAbs < 10000 := by omega
    have hlength := @length_padded 4 year.natAbs (by decide) hshort
    have hread : readDigits 1 4 (padded 4 year.natAbs ++ '-' :: rest) =
        some (year.natAbs, '-' :: rest) := by
      rw [readDigits_append (fun _ => isDigit_of_mem_padded) (by omega) (Nat.le_of_eq hlength)
        (.inl hlength), digitsValue_padded]
    have habs : (year.natAbs : Int) = year := by omega
    rw [yearText, if_pos hplain, readYear, skipBlank_padded (by decide)]
    obtain ⟨a, b, c, d, hdigits, ha, -⟩ := @padded_four year.natAbs hshort
    rw [hdigits] at hread ⊢
    simp only [List.cons_append]
    split
    · rename_i heq
      cases heq
      exact absurd ha (by decide)
    · rename_i heq
      cases heq
      exact absurd ha (by decide)
    · rw [← List.cons_append, ← List.cons_append, ← List.cons_append, ← List.cons_append, hread,
        Option.map_some, habs]
  · rw [yearText, if_neg hplain, List.cons_append, readYear]
    by_cases hneg : year < 0
    · have habs : -(year.natAbs : Int) = year := by omega
      rw [if_pos hneg, skipBlank_cons _ (by decide)]
      simp only [readRun_year, Option.map_some, habs]
    · have habs : (year.natAbs : Int) = year := by omega
      rw [if_neg hneg, skipBlank_cons _ (by decide)]
      simp only [readRun_year, Option.map_some, habs]

theorem readNanos_padded {width n : Nat} (hwidth : 0 < width) (hmost : width ≤ 9)
    (h : n < Nat.pow 10 width) :
    readNanos (padded width n ++ ['Z']) = some (n * Nat.pow 10 (9 - width), ['Z']) := by
  have hlength := length_padded hwidth h
  have hend : EndsRun ['Z'] := endsRun_cons (by decide)
  have htake : ((padded width n ++ ['Z']).take 9).takeWhile Char.isDigit = padded width n :=
    takeWhile_take_run (fun _ => isDigit_of_mem_padded) (by omega) (.inr hend)
  have hne : padded width n ≠ [] := by
    intro hnil
    rw [hnil, List.length_nil] at hlength
    omega
  simp only [readNanos, htake, if_neg hne, digitsValue_padded, List.drop_left]
  rw [hlength]
  rfl

theorem readFraction_fractionText {n : Nat} (h : n < 1000000000) :
    readFraction (fractionText n ++ ['Z']) = some (n, ['Z']) := by
  have hthree : Nat.pow 10 3 = 1000 := rfl
  have hsix : Nat.pow 10 6 = 1000000 := rfl
  have hnine : Nat.pow 10 9 = 1000000000 := rfl
  unfold fractionText
  split
  · rename_i hzero
    rw [hzero]
    rfl
  · split
    · rw [List.cons_append, readFraction, readNanos_padded (by decide) (by decide) (by omega)]
      simp only [hsix, Option.some.injEq, Prod.mk.injEq, and_true]
      omega
    · split
      · rw [List.cons_append, readFraction, readNanos_padded (by decide) (by decide) (by omega)]
        simp only [hthree, Option.some.injEq, Prod.mk.injEq, and_true]
        omega
      · rw [List.cons_append, readFraction, readNanos_padded (by decide) (by decide) (by omega)]
        have hscale : n * Nat.pow 10 (9 - 9) = n := Nat.mul_one n
        rw [hscale]

/-- The text of a bound reads back as the bound, where its year is one that a
text may name. -/
theorem ofRelaxedText?_boundText (t : Instant) :
    ofRelaxedText? t.boundText =
      if isYear (Date.ofDay t.day).year then some t else none := by
  have hvalid := Date.isValid_ofDay t.day
  simp only [Date.isValid, Bool.and_eq_true, decide_eq_true_eq] at hvalid
  have hdays := Date.daysInMonth_le (Date.ofDay t.day).year (Date.ofDay t.day).month
  have hmonth : (Date.ofDay t.day).month < 100 := by omega
  have hday : (Date.ofDay t.day).day < 100 := by omega
  have hhour : t.secondOfDay / 3600 < 100 := by
    have := t.hour_lt
    omega
  have hminute : t.secondOfDay / 60 % 60 < 100 := by omega
  have hsecond : t.secondOfDay % 60 + t.nanos / nanosPerSecond < 100 := by
    have := t.writtenSecond_le
    omega
  have hnanos : t.nanos % nanosPerSecond < 1000000000 := Nat.mod_lt _ (by decide)
  have hfields := @ofFields?_written t t rfl rfl
  simp only [boundText, textToSecond, List.append_assoc, List.cons_append] at *
  rw [ofRelaxedText?, readYear_yearText]
  simp only [Option.bind_eq_bind, Option.bind_some]
  rw [readShortAfter_padded (by decide) hmonth]
  simp only [Option.bind_some]
  rw [readShortAfter_padded (by decide) hday]
  simp only [Option.bind_some, readDivider]
  rw [readShort_padded hhour]
  simp only [Option.bind_some]
  rw [readShortAfter_padded (by decide) hminute]
  simp only [Option.bind_some]
  rw [readShortAfter_padded (by decide) hsecond]
  simp only [Option.bind_some]
  rw [readFraction_fractionText hnanos]
  exact hfields

end DecisionPoint.Time.Instant
