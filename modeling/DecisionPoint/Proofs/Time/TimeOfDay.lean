import DecisionPoint.Policy.Conditions
import DecisionPoint.Proofs.Time.Instant

/-!
The local clock between two instants. On one local day it only moves forward,
so a time of day that it does not come to lies on the same side of both
readings. From one day to a later one it comes to all times of day but those
that lie behind the first reading and ahead of the second. Either way a range
of the day contains both readings or neither, unless the clock comes to its
start or to its end.
-/

namespace DecisionPoint

open Time (Instant TimeOfDay)

namespace Time.TimeOfDay

theorem lt_iff {s t : TimeOfDay} :
    s < t ↔ s.second < t.second ∨ (s.second = t.second ∧ s.nanos < t.nanos) :=
  Iff.rfl

theorem le_iff {s t : TimeOfDay} : s ≤ t ↔ ¬ t < s :=
  Iff.rfl

/-- Whether a clock that is `minutes` ahead of UTC comes to a time of day after
`now` and no later than at `later`, on whatever day. -/
def IsReached (edge : TimeOfDay) (minutes : Int32) (now later : Instant) : Prop :=
  ∃ day : Int,
    let second := day * secondsPerDay + edge.second - offsetSeconds minutes
    (now.seconds < second ∨ (now.seconds = second ∧ now.nanos < edge.nanos)) ∧
      (second < later.seconds ∨ (second = later.seconds ∧ edge.nanos ≤ later.nanos))

/-- The number of the local day of an instant, `minutes` east of UTC. -/
def dayOf (t : Instant) (minutes : Int32) : Int :=
  (t.seconds + offsetSeconds minutes) / secondsPerDay

section Readings

variable {edge : TimeOfDay} {minutes : Int32} {now later : Instant}

theorem dayOf_mono (h : now ≤ later) : dayOf now minutes ≤ dayOf later minutes := by
  rw [Instant.le_iff, Instant.lt_iff] at h
  simp only [dayOf, secondsPerDay]
  omega

theorem seconds_ofInstant (t : Instant) (minutes : Int32) :
    t.seconds + offsetSeconds minutes =
      dayOf t minutes * secondsPerDay + (ofInstant t minutes).second := by
  simp only [dayOf, ofInstant, secondsPerDay]
  omega

theorem nanos_ofInstant (t : Instant) (minutes : Int32) : (ofInstant t minutes).nanos = t.nanos :=
  rfl

/-- On one day, a time that is not reached lies on the same side of both
readings. -/
theorem le_iff_of_not_isReached (hday : dayOf later minutes = dayOf now minutes)
    (hle : now ≤ later) (h : ¬ edge.IsReached minutes now later) :
    edge ≤ ofInstant later minutes ↔ edge ≤ ofInstant now minutes := by
  have hnow := seconds_ofInstant now minutes
  have hlater := seconds_ofInstant later minutes
  -- On any other day the edge lies outside the span anyway.
  have hreach := not_exists.mp h (dayOf now minutes)
  rw [Instant.le_iff, Instant.lt_iff] at hle
  rw [hday] at hlater
  simp only [le_iff, lt_iff, nanos_ofInstant]
  omega

/-- From one day to a later one, a time that is not reached lies behind the
first reading and ahead of the second. -/
theorem around_of_not_isReached (hday : dayOf now minutes < dayOf later minutes)
    (h : ¬ edge.IsReached minutes now later) :
    ofInstant later minutes < edge ∧ edge ≤ ofInstant now minutes := by
  have hnow := seconds_ofInstant now minutes
  have hlater := seconds_ofInstant later minutes
  have hfirst := not_exists.mp h (dayOf now minutes)
  have hlast := not_exists.mp h (dayOf later minutes)
  have hedge := edge.second_lt
  have hreading := (ofInstant now minutes).second_lt
  have hreading' := (ofInstant later minutes).second_lt
  simp only [le_iff, lt_iff, nanos_ofInstant, secondsPerDay] at *
  omega

end Readings

end Time.TimeOfDay

namespace TimeRange

/-- A range of the day contains two readings of the local clock or neither, if
the clock comes neither to its start nor to its end between them. -/
theorem contains_eq_of_not_isReached {range : TimeRange} {minutes : Int32} {now later : Instant}
    (hle : now ≤ later) (hstart : ¬ range.start.IsReached minutes now later)
    (hstop : ¬ range.stop.IsReached minutes now later) :
    range.contains (.ofInstant later minutes) = range.contains (.ofInstant now minutes) := by
  have hdays : TimeOfDay.dayOf now minutes ≤ TimeOfDay.dayOf later minutes :=
    TimeOfDay.dayOf_mono hle
  rcases Int.lt_or_eq_of_le hdays with hday | hday
  · obtain ⟨hahead, hbehind⟩ := TimeOfDay.around_of_not_isReached hday hstart
    obtain ⟨hahead', hbehind'⟩ := TimeOfDay.around_of_not_isReached hday hstop
    have hoff : ¬ range.start ≤ TimeOfDay.ofInstant later minutes := fun h => h hahead
    have hoff' : ¬ TimeOfDay.ofInstant now minutes < range.stop := hbehind'
    by_cases hwraps : range.wraps = true
    · simp [contains, hwraps, hbehind, hahead']
    · simp [contains, hwraps, hoff, hoff']
  · have hfrom := TimeOfDay.le_iff_of_not_isReached hday.symm hle hstart
    have huntil : TimeOfDay.ofInstant later minutes < range.stop ↔
        TimeOfDay.ofInstant now minutes < range.stop :=
      Decidable.not_iff_not.mp (TimeOfDay.le_iff_of_not_isReached hday.symm hle hstop)
    simp only [contains, hfrom, huntil]

end TimeRange

end DecisionPoint
