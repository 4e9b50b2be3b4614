import DecisionPoint.Time.Calendar

/-!
Day numbers and dates: every day number has a date of the calendar, and its
date gives the day number back. Inside an era the year of a day is found
between the first and the last day of that year, because the year never falls
as the days go on.
-/

namespace DecisionPoint.Time.Date

/-! ## The years of an era -/

/-- The first day of a year of an era, years counted from March. -/
def firstDay (year : Nat) : Nat :=
  dayOfEra year 0 0

/-- The last day of a year of an era, which ends with February of the next. -/
def lastDay (year : Nat) : Nat :=
  firstDay year + if isLeapYear (year + 1) then 365 else 364

private theorem year_ends_table : ∀ year, year < 400 →
    yearOfEra (firstDay year) = year ∧ yearOfEra (lastDay year) = year ∧
      (lastDay year + 1 = firstDay (year + 1) ∨ year = 399) := by
  decide +kernel

theorem yearOfEra_le_succ {n : Nat} (h : n + 1 < 146097) :
    yearOfEra n ≤ yearOfEra (n + 1) := by
  unfold yearOfEra
  apply Nat.div_le_div_right
  by_cases hlast : n + 1 = 146096
  · obtain rfl : n = 146095 := by omega
    decide
  · omega

theorem yearOfEra_mono {m n : Nat} (hmn : m ≤ n) (h : n < 146097) :
    yearOfEra m ≤ yearOfEra n := by
  induction n with
  | zero =>
      have hzero : m = 0 := Nat.le_zero.mp hmn
      exact Nat.le_of_eq (by rw [hzero])
  | succ n ih =>
      rcases Nat.lt_or_eq_of_le hmn with hlt | rfl
      · have hprevious := ih (Nat.le_of_lt_succ hlt) (by omega)
        exact Nat.le_trans hprevious (yearOfEra_le_succ h)
      · exact Nat.le_refl _

theorem yearOfEra_lt {n : Nat} (h : n < 146097) : yearOfEra n < 400 := by
  have hbound := yearOfEra_mono (Nat.le_of_lt_succ h) (by decide)
  have hlast : yearOfEra 146096 = 399 := by decide
  omega

/-- A day of an era lies between the first and the last day of its year. -/
theorem day_in_yearOfEra {n : Nat} (h : n < 146097) :
    firstDay (yearOfEra n) ≤ n ∧ n ≤ lastDay (yearOfEra n) := by
  have hyear := yearOfEra_lt h
  have hhere := year_ends_table _ hyear
  constructor
  · apply Nat.le_of_not_lt
    intro hbefore
    cases hcase : yearOfEra n with
    | zero => simp [hcase, firstDay, dayOfEra] at hbefore
    | succ previous =>
        obtain ⟨-, hend, hnext⟩ := year_ends_table previous (by omega)
        have hle : n ≤ lastDay previous := by
          rw [hcase] at hbefore
          omega
        have hlast : lastDay previous < 146097 := by
          have hfirst : firstDay (previous + 1) < 146097 := by
            simp only [firstDay, dayOfEra]
            omega
          omega
        have := yearOfEra_mono hle hlast
        omega
  · apply Nat.le_of_not_lt
    intro hafter
    rcases hhere.2.2 with hnext | hfinal
    · have hstart : firstDay (yearOfEra n + 1) ≤ n := by omega
      have hnextYear : yearOfEra n + 1 < 400 := by
        apply Nat.lt_of_not_le
        intro hover
        have hlast : yearOfEra n = 399 := by omega
        have hday : lastDay 399 = 146096 := by decide
        rw [hlast] at hafter
        omega
      have := yearOfEra_mono hstart h
      rw [(year_ends_table _ hnextYear).1] at this
      omega
    · have hday : lastDay 399 = 146096 := by decide
      rw [hfinal] at hafter
      omega

/-- The day of its year of a day of an era. -/
theorem dayOfYear_le {n : Nat} (h : n < 146097) :
    n - firstDay (yearOfEra n) ≤ if isLeapYear (yearOfEra n + 1) then 365 else 364 := by
  have hlast := (day_in_yearOfEra h).2
  simp only [lastDay] at hlast
  omega

/-! ## Dates -/

theorem isLeapYear_add_eras (eras : Int) (year : Int) :
    isLeapYear (eras * 400 + year) = isLeapYear year := by
  have h4 : (eras * 400 + year) % 4 = year % 4 := by omega
  have h100 : (eras * 400 + year) % 100 = year % 100 := by omega
  have h400 : (eras * 400 + year) % 400 = year % 400 := by omega
  simp only [isLeapYear, h4, h100, h400]

/-- The date of a day number gives the day number back. -/
theorem toDay_ofDay (n : Int) : (ofDay n).toDay = n := by
  have hday : ((n + eraOffset) % daysPerEra).toNat < 146097 := by
    simp only [eraOffset, daysPerEra]
    omega
  have hera : (n + eraOffset) / daysPerEra * daysPerEra +
      ((n + eraOffset) % daysPerEra).toNat = n + eraOffset := by
    simp only [eraOffset, daysPerEra]
    omega
  have hyear := yearOfEra_lt hday
  have hfirst := (day_in_yearOfEra hday).1
  have hlength := dayOfYear_le hday
  simp only [ofDay]
  generalize (n + eraOffset) / daysPerEra = era at *
  generalize ((n + eraOffset) % daysPerEra).toNat = day at *
  generalize hy : yearOfEra day = year at *
  simp only [firstDay] at hfirst hlength
  generalize hd : day - dayOfEra year 0 0 = dayOfYear at *
  have hdayOfYear : dayOfYear ≤ 365 := by
    split at hlength <;> omega
  have hmod : ((era * 400 + year) % 400).toNat = year := by omega
  have hdiv : (era * 400 + year) / 400 = era := by omega
  have hback : dayOfEra year ((5 * dayOfYear + 2) / 153)
      (dayOfYear - (153 * ((5 * dayOfYear + 2) / 153) + 2) / 5) = day := by
    simp only [dayOfEra] at hd hfirst ⊢
    omega
  split
  · have hmonth : ¬ (5 * dayOfYear + 2) / 153 + 3 ≤ 2 := by omega
    simp only [toDay, if_neg hmonth, Nat.add_sub_cancel, hmod, hdiv, hback]
    omega
  · have hmonth : (5 * dayOfYear + 2) / 153 - 9 ≤ 2 := by omega
    have hsame : (5 * dayOfYear + 2) / 153 - 9 + 9 = (5 * dayOfYear + 2) / 153 := by omega
    simp only [toDay, if_pos hmonth, Int.add_sub_cancel, Nat.add_sub_cancel, hsame, hmod, hdiv,
      hback]
    omega

private theorem day_in_month_table : ∀ dayOfYear, dayOfYear < 366 →
    dayOfYear - (153 * ((5 * dayOfYear + 2) / 153) + 2) / 5 + 1 ≤
      (match (5 * dayOfYear + 2) / 153 with
        | 1 => 30 | 3 => 30 | 6 => 30 | 8 => 30
        | 11 => if dayOfYear = 365 then 29 else 28
        | _ => 31) := by
  decide +kernel

theorem daysInMonth_le (year : Int) (month : Nat) : daysInMonth year month ≤ 31 := by
  unfold daysInMonth
  split
  case h_1 => split <;> decide
  all_goals decide

/-- The date of a day number is one of the calendar. -/
theorem isValid_ofDay (n : Int) : (ofDay n).isValid = true := by
  have hday : ((n + eraOffset) % daysPerEra).toNat < 146097 := by
    simp only [eraOffset, daysPerEra]
    omega
  have hlength := dayOfYear_le hday
  simp only [ofDay]
  generalize (n + eraOffset) / daysPerEra = era at *
  generalize ((n + eraOffset) % daysPerEra).toNat = day at *
  generalize yearOfEra day = year at *
  simp only [firstDay] at hlength
  generalize day - dayOfEra year 0 0 = dayOfYear at *
  have hdayOfYear : dayOfYear < 366 := by
    split at hlength <;> omega
  have htable := day_in_month_table dayOfYear hdayOfYear
  have hmonth : (5 * dayOfYear + 2) / 153 < 12 := by omega
  have hleap : dayOfYear = 365 → isLeapYear (era * 400 + (year : Int) + 1) = true := by
    intro hlast
    rw [Int.add_assoc, isLeapYear_add_eras]
    split at hlength
    · assumption
    · omega
  have hpositive : 1 ≤ dayOfYear - (153 * ((5 * dayOfYear + 2) / 153) + 2) / 5 + 1 :=
    Nat.le_add_left 1 _
  generalize dayOfYear - (153 * ((5 * dayOfYear + 2) / 153) + 2) / 5 + 1 = dayOfMonth at *
  generalize (5 * dayOfYear + 2) / 153 = month at *
  have hmonths : month = 0 ∨ month = 1 ∨ month = 2 ∨ month = 3 ∨ month = 4 ∨ month = 5 ∨
      month = 6 ∨ month = 7 ∨ month = 8 ∨ month = 9 ∨ month = 10 ∨ month = 11 := by
    omega
  rcases hmonths with rfl | rfl | rfl | rfl | rfl | rfl | rfl | rfl | rfl | rfl | rfl | rfl
  case inr.inr.inr.inr.inr.inr.inr.inr.inr.inr.inr =>
    by_cases hlast : dayOfYear = 365
    · simp_all [isValid, daysInMonth]
    · simp only [hlast, if_false] at htable
      have hshort : dayOfMonth ≤ if isLeapYear (era * 400 + (year : Int) + 1) then 29 else 28 := by
        split <;> omega
      simpa [isValid, daysInMonth, hpositive] using hshort
  all_goals simp_all [isValid, daysInMonth]

/-! ## New years -/

/-- The day number by the years before it, counted from March. -/
theorem toDay_eq (d : Date) : d.toDay =
    (if d.month ≤ 2 then d.year - 1 else d.year) * 365 +
      (if d.month ≤ 2 then d.year - 1 else d.year) / 4 -
      (if d.month ≤ 2 then d.year - 1 else d.year) / 100 +
      (if d.month ≤ 2 then d.year - 1 else d.year) / 400 +
      ((153 * (if d.month ≤ 2 then d.month + 9 else d.month - 3) + 2) / 5 + (d.day - 1) : Nat) -
      719468 := by
  simp only [toDay, dayOfEra, daysPerEra, eraOffset]
  generalize (if d.month ≤ 2 then d.year - 1 else d.year) = year
  omega

theorem newYear_le_toDay {d : Date} {year : Int} (h : d.isValid = true) (hyear : year ≤ d.year) :
    toDay ⟨year, 1, 1⟩ ≤ d.toDay := by
  simp only [isValid, Bool.and_eq_true, decide_eq_true_eq] at h
  simp only [toDay_eq, if_pos (by decide : 1 ≤ 2)]
  split <;> omega

/-- The days of earlier years come before the first day of a year. -/
theorem toDay_lt_newYear {d : Date} {year : Int} (h : d.isValid = true) (hyear : d.year < year) :
    d.toDay < toDay ⟨year, 1, 1⟩ := by
  have hdays := daysInMonth_le d.year d.month
  have hfebruary : d.month = 2 → d.day ≤ 29 := by
    intro hmonth
    simp only [isValid, hmonth, daysInMonth, Bool.and_eq_true, decide_eq_true_eq] at h
    split at h <;> omega
  simp only [isValid, Bool.and_eq_true, decide_eq_true_eq] at h
  simp only [toDay_eq, if_pos (by decide : 1 ≤ 2)]
  split <;> omega

/-- A year is longer than a day. -/
theorem newYear_add_one_lt {year later : Int} (h : year < later) :
    toDay ⟨year, 1, 1⟩ + 1 < toDay ⟨later, 1, 1⟩ := by
  simp only [toDay_eq, if_pos (by decide : 1 ≤ 2)]
  omega

end DecisionPoint.Time.Date
