import DecisionPoint.Proofs.Time.Timestamp
import DecisionPoint.Time.TimeOfDay

/-!
Times of day and their texts. A text says whole seconds, the second 60 of a
minute among them. Every time of that kind reads back from its text, with the
seconds left out where they are zero, and no other time is ever read.
-/

namespace DecisionPoint.Time.TimeOfDay

open Text

/-- Whether a time is one of whole seconds. A leap second is the second 60 of
its minute. -/
def isWhole (t : TimeOfDay) : Bool :=
  t.nanos == 0 || (t.nanos == nanosPerSecond && t.second % 60 == 59)

theorem isWhole_iff {t : TimeOfDay} :
    t.isWhole = true ↔ t.nanos = 0 ∨ (t.nanos = 1000000000 ∧ t.second % 60 = 59) := by
  rw [isWhole, Bool.or_eq_true, Bool.and_eq_true, beq_iff_eq, beq_iff_eq, beq_iff_eq]
  exact Iff.rfl

/-! ## Reading what was written -/

theorem readField_padded {n : Nat} (h : n < 100) (rest : List Char) :
    readField (padded 2 n ++ rest) = some (n, rest) :=
  Instant.readShort_padded h rest

theorem readNextField_padded {n : Nat} (h : n < 100) (rest : List Char) :
    readNextField (':' :: (padded 2 n ++ rest)) = some (n, rest) :=
  readField_padded h rest

theorem ofText?_short {hour minute : Nat} (hhour : hour < 100) (hminute : minute < 100) :
    ofText? (padded 2 hour ++ ':' :: padded 2 minute) = ofClock? hour minute 0 := by
  have hread := readNextField_padded hminute []
  rw [List.append_nil] at hread
  rw [ofText?, readField_padded hhour]
  simp only [Option.bind_eq_bind, Option.bind_some, hread, if_true]

theorem ofText?_long {hour minute second : Nat} (hhour : hour < 100) (hminute : minute < 100)
    (hsecond : second < 100) :
    ofText? (padded 2 hour ++ ':' :: (padded 2 minute ++ ':' :: padded 2 second)) =
      ofClock? hour minute second := by
  have hread := readNextField_padded hsecond []
  rw [List.append_nil] at hread
  rw [ofText?, readField_padded hhour]
  simp only [Option.bind_eq_bind, Option.bind_some, readNextField_padded hminute, reduceCtorEq,
    if_false, hread, if_true]

/-- The hour, the minute and the written second of a whole time give it back. -/
theorem ofClock?_written {t : TimeOfDay} (h : t.isWhole = true) :
    ofClock? (t.second / 3600) (t.second / 60 % 60)
      (t.second % 60 + t.nanos / nanosPerSecond) = some t := by
  obtain ⟨second, nanos, hsecond, hnanos⟩ := t
  have hhour : second / 3600 < 24 ∧ second / 60 % 60 < 60 := by omega
  rcases isWhole_iff.mp h with hplain | ⟨hleap, hlast⟩
  · change nanos = 0 at hplain
    subst hplain
    have hshort : second % 60 + 0 / nanosPerSecond = second % 60 := by simp
    have hback : second / 3600 * 3600 + second / 60 % 60 * 60 + second % 60 = second := by omega
    simp only [ofClock?, if_pos hhour, hshort, if_neg (by omega : second % 60 ≠ 60),
      if_pos (by omega : second % 60 < 60), hback]
    exact dif_pos ⟨hsecond, hnanos⟩
  · change nanos = 1000000000 at hleap
    change second % 60 = 59 at hlast
    subst hleap
    have hsixty : second % 60 + 1000000000 / nanosPerSecond = 60 := by
      rw [hlast]
      rfl
    have hback : second / 3600 * 3600 + second / 60 % 60 * 60 + 59 = second := by omega
    simp only [ofClock?, if_pos hhour, hsixty, if_true, hback]
    exact dif_pos ⟨hsecond, hnanos⟩

/-- A whole time reads back from its text. -/
theorem ofText?_text {t : TimeOfDay} (h : t.isWhole = true) : ofText? t.text = some t := by
  have hhour : t.second / 3600 < 100 := by
    have := t.second_lt
    omega
  have hminute : t.second / 60 % 60 < 100 := by omega
  have hclock := ofClock?_written h
  rw [isWhole_iff] at h
  by_cases hzero : t.second % 60 = 0
  · have hnanos : t.nanos = 0 := by omega
    rw [hzero, hnanos] at hclock
    simp only [text, hzero, if_true]
    rw [ofText?_short hhour hminute]
    exact hclock
  · have hsecond : t.second % 60 + t.nanos / nanosPerSecond < 100 := by
      simp only [nanosPerSecond]
      omega
    simp only [text, if_neg hzero, List.append_assoc, List.cons_append]
    rw [ofText?_long hhour hminute hsecond]
    exact hclock

/-! ## What is read is whole -/

theorem eq_of_ofParts? {second nanos : Nat} {t : TimeOfDay} (h : ofParts? second nanos = some t) :
    t.second = second ∧ t.nanos = nanos := by
  unfold ofParts? at h
  split at h
  · cases h
    exact ⟨rfl, rfl⟩
  · cases h

theorem isWhole_of_ofClock? {hour minute second : Nat} {t : TimeOfDay}
    (h : ofClock? hour minute second = some t) : t.isWhole = true := by
  rw [isWhole_iff]
  unfold ofClock? at h
  split at h
  · split at h
    · obtain ⟨hsecond, hnanos⟩ := eq_of_ofParts? h
      right
      omega
    · split at h
      · exact .inl (eq_of_ofParts? h).2
      · cases h
  · cases h

theorem isWhole_of_ofText? {cs : List Char} {t : TimeOfDay} (h : ofText? cs = some t) :
    t.isWhole = true := by
  simp only [ofText?, Option.bind_eq_bind, Option.bind_eq_some_iff, Prod.exists] at h
  obtain ⟨hour, rest, -, minute, rest', -, h⟩ := h
  split at h
  · exact isWhole_of_ofClock? h
  · obtain ⟨⟨second, rest''⟩, -, h⟩ := Option.bind_eq_some_iff.mp h
    simp only at h
    split at h
    · exact isWhole_of_ofClock? h
    · cases h

end DecisionPoint.Time.TimeOfDay
