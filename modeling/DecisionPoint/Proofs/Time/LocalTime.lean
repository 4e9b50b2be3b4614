import DecisionPoint.Proofs.Choice
import DecisionPoint.Proofs.Time.TimeOfDay

/-!
Local time under settings that pass their check. The check allows offsets of up to eighteen
hours either way. These are shorter than a day and their seconds fit 32 bits, so that UTC
never stands in for the local time. The local clock then shows the seconds since the start of
1970 and those of the offset together, around the day, before 1970 as after it, and its day
is the UTC day or one next to it. Nanoseconds stay as they are, those of leap seconds included.
-/

namespace DecisionPoint

open Time (Instant TimeOfDay)

/-- Settings that pass their check have an offset within the greatest one. The check takes
absolute values without bounds, so that it refuses the least number of 32 bits as well. -/
theorem Config.natAbs_utcOffset_le {c : Config} (h : c.validate = .ok c) :
    c.utcOffset.toInt.natAbs ≤ greatestOffset := by
  have hsound : c.defect? = none := by
    cases hcause : c.defect? with
    | none => rfl
    | some cause =>
        rw [validate, hcause] at h
        cases h
  rw [defect?] at hsound
  grind

namespace Time.TimeOfDay

/-- Whether a time of day is what a clock shows at an instant, the clock being some minutes
ahead of UTC, or behind it. -/
structure Shows (u : TimeOfDay) (t : Instant) (minutes : Int) : Prop where
  second : (u.second : Int) = (t.seconds + 60 * minutes) % secondsPerDay
  nanos : u.nanos = t.nanos

/-- A clock shows one time. -/
theorem Shows.unique {u v : TimeOfDay} {t : Instant} {minutes : Int} (hu : u.Shows t minutes)
    (hv : v.Shows t minutes) : u = v := by
  have hsecond : u.second = v.second := Int.ofNat_inj.mp (hu.second.trans hv.second.symm)
  have hnanos : u.nanos = v.nanos := hu.nanos.trans hv.nanos.symm
  cases u
  cases v
  cases hsecond
  cases hnanos
  rfl

section Offset

variable {minutes : Int32} (h : minutes.toInt.natAbs < 24 * 60)

include h

/-- The seconds of less than a day fit 32 bits. -/
theorem toInt_seconds : (minutes * 60).toInt = 60 * minutes.toInt := by
  have hsixty : (60 : Int32).toInt = 60 := rfl
  rw [Int32.toInt_mul, hsixty, Int.bmod_eq_of_le (by omega) (by omega), Int.mul_comm]

theorem natAbs_seconds_lt : (minutes * 60).toInt.natAbs < secondsPerDay := by
  rw [toInt_seconds h, secondsPerDay]
  omega

/-- An offset of less than a day is taken as it is. -/
theorem offsetSeconds_eq : offsetSeconds minutes = (minutes * 60).toInt := by
  have hwithin := natAbs_seconds_lt h
  rw [offsetSeconds]
  exact if_pos (by omega)

theorem shows_ofInstant (t : Instant) : (ofInstant t minutes).Shows t minutes.toInt where
  second := by
    rw [← toInt_seconds h, ← offsetSeconds_eq h]
    exact Int.toNat_of_nonneg (Int.emod_nonneg _ (by decide))
  nanos := rfl

/-- The local clock is on the day of UTC or on one next to it. -/
theorem natAbs_dayOf_le (t : Instant) : (dayOf t minutes - t.day).natAbs ≤ 1 := by
  have hwithin := natAbs_seconds_lt h
  rw [dayOf, offsetSeconds_eq h, Instant.day]
  simp only [secondsPerDay] at *
  omega

end Offset

end Time.TimeOfDay

/-- Local time is exact under all settings that pass their check. The seconds of the offset
are counted without overflow and come to less than a day, so that they are the offset. The
time of day is the one that a clock shows with the offset, on the day of UTC or one next to
it, and it is the one at which the conditions of policies are looked at. -/
theorem local_time_exact {c : Config} (h : c.validate = .ok c) (t : Instant) :
    (c.utcOffset * 60).toInt = 60 * c.utcOffset.toInt ∧
      (c.utcOffset * 60).toInt.natAbs < Time.secondsPerDay ∧
      TimeOfDay.offsetSeconds c.utcOffset = (c.utcOffset * 60).toInt ∧
      (TimeOfDay.ofInstant t c.utcOffset).Shows t c.utcOffset.toInt ∧
      (TimeOfDay.dayOf t c.utcOffset - t.day).natAbs ≤ 1 ∧
      ∀ u : TimeOfDay, u.Shows t c.utcOffset.toInt → ∀ (r : Request) (policies : List Policy),
        (rule c r policies t).winner =
          (Policy.inForce policies t).find? (·.applies r u) := by
  have hoffset : c.utcOffset.toInt.natAbs < 24 * 60 :=
    Nat.lt_of_le_of_lt (Config.natAbs_utcOffset_le h) (by decide)
  have hshows := TimeOfDay.shows_ofInstant hoffset t
  refine ⟨TimeOfDay.toInt_seconds hoffset, TimeOfDay.natAbs_seconds_lt hoffset,
    TimeOfDay.offsetSeconds_eq hoffset, hshows, TimeOfDay.natAbs_dayOf_le hoffset t, ?_⟩
  intro u hu r policies
  rw [hu.unique hshows]
  exact search_winner r (.ofInstant t c.utcOffset) (Policy.inForce policies t)

def sampleWestern : Config :=
  { Config.standard with utcOffset := -1080 }

def sampleLeapSecond : Instant :=
  ⟨-1, 1500000000, .inr (by decide)⟩

/-- Eighteen hours behind UTC a clock shows the leap second before six in the morning, and
half a second of it has passed. -/
theorem local_time_exact_sample :
    sampleWestern.validate = .ok sampleWestern ∧
      TimeOfDay.ofInstant sampleLeapSecond sampleWestern.utcOffset =
        ⟨21599, 1500000000, by decide, by decide⟩ := by
  have hvalid : sampleWestern.validate = .ok sampleWestern := rfl
  obtain ⟨-, -, -, hshows, -⟩ := local_time_exact hvalid sampleLeapSecond
  exact ⟨hvalid, hshows.unique ⟨by decide, rfl⟩⟩

end DecisionPoint
