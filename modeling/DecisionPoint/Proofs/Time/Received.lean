import DecisionPoint.Proofs.Text.Digits
import DecisionPoint.Proofs.Time.Calendar
import DecisionPoint.Proofs.Time.Timestamp

/-!
Instants that a wire text was read as. They are cut to milliseconds. The text
names a year of four digits, and its offset moves the instant by less than a
day, so in UTC the year is one of four digits, the year before all of them or
the year after them.
-/

namespace DecisionPoint.Time.Instant

open Text

theorem truncateToMillis_eq_self {t : Instant} (h : t.nanos % 1000000 = 0) :
    t.truncateToMillis = t := by
  obtain ⟨seconds, nanos, hrule⟩ := t
  simp only [truncateToMillis, mk.injEq, true_and]
  simp only at h
  omega

theorem eq_of_ofParts? {seconds : Int} {nanos : Nat} {t : Instant}
    (h : ofParts? seconds nanos = some t) : t.seconds = seconds ∧ t.nanos = nanos := by
  unfold ofParts? at h
  split at h
  · cases h
    exact ⟨rfl, rfl⟩
  · cases h

/-- An instant lies in the named day, moved by the offset, and runs on in a
leap second. -/
theorem ofFields?_eq_some {date : Date} {hour minute second nanos : Nat} {ahead : Int}
    {t : Instant} (h : ofFields? date hour minute second nanos ahead = some t) :
    date.isValid = true ∧
      t.nanos = (if second = 60 then nanosPerSecond + nanos else nanos) ∧
      date.toDay * 86400 - ahead ≤ t.seconds ∧ t.seconds < (date.toDay + 1) * 86400 - ahead := by
  simp only [ofFields?] at h
  split at h
  · rename_i hfields
    obtain ⟨hvalid, hhour, hminute, -, -⟩ := hfields
    split at h
    · obtain ⟨hseconds, hnanos⟩ := eq_of_ofParts? h
      simp only [secondsPerDay] at hseconds
      refine ⟨hvalid, hnanos, ?_, ?_⟩ <;> omega
    · cases h
  · cases h

/-! ## The year of an instant in UTC -/

/-- An offset of less than a day moves a date into the year before or the year
after at most. -/
theorem year_near (first last : Int) {date : Date} {t : Instant} {ahead : Int}
    (hvalid : date.isValid = true) (hfirst : first ≤ date.year) (hlast : date.year ≤ last)
    (hlow : date.toDay * 86400 - ahead ≤ t.seconds)
    (hhigh : t.seconds < (date.toDay + 1) * 86400 - ahead)
    (hbehind : -86400 < ahead) (hahead : ahead < 86400) :
    first - 1 ≤ (Date.ofDay t.day).year ∧ (Date.ofDay t.day).year ≤ last + 1 := by
  have hday : date.toDay - 1 ≤ t.day ∧ t.day ≤ date.toDay + 1 := by
    simp only [day, secondsPerDay]
    omega
  have hutc := Date.isValid_ofDay t.day
  have hback := Date.toDay_ofDay t.day
  constructor
  · apply Int.not_lt.mp
    intro hless
    have hbefore : (Date.ofDay t.day).toDay < Date.toDay ⟨first - 1, 1, 1⟩ :=
      Date.toDay_lt_newYear hutc (by omega)
    have hafter : Date.toDay ⟨first, 1, 1⟩ ≤ date.toDay := Date.newYear_le_toDay hvalid hfirst
    have hyear := Date.newYear_add_one_lt (by omega : first - 1 < first)
    omega
  · apply Int.not_lt.mp
    intro hmore
    have hafter : Date.toDay ⟨last + 2, 1, 1⟩ ≤ (Date.ofDay t.day).toDay :=
      Date.newYear_le_toDay hutc (by omega)
    have hbefore : date.toDay < Date.toDay ⟨last + 1, 1, 1⟩ :=
      Date.toDay_lt_newYear hvalid (by omega)
    have hyear := Date.newYear_add_one_lt (by omega : last + 1 < last + 2)
    omega

theorem readOffset_lt {separator : List Char → Option (List Char)} {cs rest : List Char}
    {ahead : Int} (h : readOffset separator cs = some (ahead, rest)) :
    -86400 < ahead ∧ ahead < 86400 := by
  unfold readOffset at h
  split at h
  · cases h
    decide
  · cases h
    decide
  · simp only [Option.bind_eq_bind, Option.bind_eq_some_iff, Prod.exists] at h
    obtain ⟨negative, rest', -, hours, rest'', -, rest₃, -, minutes, rest₄, -, h⟩ := h
    split at h
    · cases h
    · rename_i hshort
      cases h
      split <;> omega

/-- What RFC 3339 accepts lies in the years -1 to 10000 of UTC. -/
theorem of_ofRfc3339? {cs : List Char} {t : Instant} (h : ofRfc3339? cs = some t) :
    -1 ≤ (Date.ofDay t.day).year ∧ (Date.ofDay t.day).year ≤ 10000 := by
  simp only [ofRfc3339?, Option.bind_eq_bind, Option.bind_eq_some_iff, Prod.exists] at h
  obtain ⟨year, _, hyear, _, -, month, _, -, _, -, day, _, -, _, -, hour, _, -, _, -, minute, _, -,
    _, -, second, _, -, nanos, _, -, ahead, rest, hoffset, h⟩ := h
  split at h
  · have hdigits : year < 10000 := readDigits_lt hyear
    obtain ⟨hvalid, -, hlow, hhigh⟩ := ofFields?_eq_some h
    obtain ⟨hbehind, hahead⟩ := readOffset_lt hoffset
    exact year_near 0 9999 hvalid (by simp) (by simp; omega) hlow hhigh
      hbehind hahead
  · cases h

/-- What the columns accept lies in the years -1 to 10000 of UTC, and has whole
milliseconds. -/
theorem of_ofColumns? {cs : List Char} {t : Instant} (h : ofColumns? cs = some t) :
    t.nanos % 1000000 = 0 ∧ -1 ≤ (Date.ofDay t.day).year ∧ (Date.ofDay t.day).year ≤ 10000 := by
  simp only [ofColumns?, Option.bind_eq_bind, Option.bind_eq_some_iff] at h
  obtain ⟨year, hyear, month, -, day, -, hour, -, minute, -, second, -, millis, -, h⟩ := h
  obtain ⟨hvalid, hnanos, hlow, hhigh⟩ := ofFields?_eq_some h
  have hdigits : year < 10000 := by
    simp only [column?] at hyear
    split at hyear
    · rename_i hall
      cases hyear
      exact digitsValue_lt (List.all_eq_true.mp hall) (List.length_take_le _ _)
    · cases hyear
  refine ⟨?_, year_near 0 9999 hvalid (by simp) (by simp; omega) hlow hhigh
      (by decide) (by decide)⟩
  simp only [nanosPerSecond] at hnanos
  rw [hnanos]
  split <;> omega

/-- What a wire text is read as is cut to milliseconds, and its year has four
digits or is next to those that have. -/
theorem of_ofWireText? {cs : List Char} {t : Instant} (h : ofWireText? cs = some t) :
    t.truncateToMillis = t ∧ -1 ≤ (Date.ofDay t.day).year ∧ (Date.ofDay t.day).year ≤ 10000 := by
  simp only [ofWireText?] at h
  split at h
  · obtain ⟨hcut, hyear⟩ := of_ofColumns? h
    exact ⟨truncateToMillis_eq_self hcut, hyear⟩
  · obtain ⟨u, hu, rfl⟩ := Option.map_eq_some_iff.mp h
    have hyear := of_ofRfc3339? hu
    refine ⟨truncateToMillis_eq_self ?_, hyear⟩
    simp only [truncateToMillis]
    omega

end DecisionPoint.Time.Instant
