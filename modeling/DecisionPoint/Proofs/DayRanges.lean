import DecisionPoint.Proofs.Matching
import DecisionPoint.Proofs.Time.TimeOfDay

/-!
Ranges of the day as arcs of the clock. Outside leap seconds a time of day is its
nanoseconds since midnight, and a range contains the times that are fewer nanoseconds past
its start, around the clock, than its stop is. So midnight is a time like any other: a
range and a time that are turned alike answer alike, and a range and its reverse share the
day between them. Conditions accept the times that lie in none of their denied arcs and in
one of their allowed ones.
-/

namespace DecisionPoint

open Time (TimeOfDay)

namespace Time

def nanosPerDay : Int := secondsPerDay * nanosPerSecond

namespace TimeOfDay

/-! ## Times around the clock -/

/-- The nanoseconds since midnight, leap seconds left out. -/
def count (t : TimeOfDay) : Int :=
  t.second * nanosPerSecond + t.nanos

/-- Whether a time lies outside leap seconds. -/
def isPlain (t : TimeOfDay) : Bool :=
  t.nanos < nanosPerSecond

/-- The time some nanoseconds after midnight, or before it, around the clock. -/
def ofCount (n : Int) : TimeOfDay where
  second := (n % nanosPerDay / nanosPerSecond).toNat
  nanos := (n % nanosPerDay % nanosPerSecond).toNat
  second_lt := by simp only [nanosPerDay, secondsPerDay, nanosPerSecond]; omega
  nanos_lt := by simp only [nanosPerDay, secondsPerDay, nanosPerSecond]; omega

def turn (t : TimeOfDay) (n : Int) : TimeOfDay :=
  ofCount (t.count + n)

theorem isPlain_iff {t : TimeOfDay} : t.isPlain = true ↔ t.nanos < 1000000000 := by
  rw [isPlain, decide_eq_true_eq]
  exact Iff.rfl

theorem lt_or_gt_of_ne {s t : TimeOfDay} (h : s ≠ t) : s < t ∨ t < s := by
  obtain ⟨second, nanos, _, _⟩ := s
  obtain ⟨second', nanos', _, _⟩ := t
  rw [ne_eq, mk.injEq] at h
  simp only [lt_iff]
  omega

theorem lt_iff_count {s t : TimeOfDay} (hs : s.isPlain = true) (ht : t.isPlain = true) :
    s < t ↔ s.count < t.count := by
  rw [isPlain_iff] at hs ht
  simp only [lt_iff, count, nanosPerSecond]
  omega

theorem count_bounds {t : TimeOfDay} (h : t.isPlain = true) :
    0 ≤ t.count ∧ t.count < nanosPerDay := by
  have hsecond := t.second_lt
  rw [isPlain_iff] at h
  simp only [count, nanosPerDay, secondsPerDay, nanosPerSecond]
  omega

theorem isPlain_turn (t : TimeOfDay) (n : Int) : (t.turn n).isPlain = true := by
  rw [isPlain_iff]
  simp only [turn, ofCount, nanosPerDay, secondsPerDay, nanosPerSecond]
  omega

theorem count_turn (t : TimeOfDay) (n : Int) :
    (t.turn n).count = (t.count + n) % nanosPerDay := by
  simp only [turn]
  generalize t.count + n = total
  simp only [ofCount, count, nanosPerDay, secondsPerDay, nanosPerSecond]
  omega

end TimeOfDay

end Time

/-! ## Arcs -/

namespace TimeRange

/-- Whether neither end of a range lies in a leap second. -/
def isPlain (range : TimeRange) : Bool :=
  range.start.isPlain && range.stop.isPlain

/-- Whether a time lies on the arc of a range: fewer nanoseconds past its start, around
the clock, than its stop does. -/
def Spans (range : TimeRange) (t : TimeOfDay) : Prop :=
  (t.count - range.start.count) % Time.nanosPerDay <
    (range.stop.count - range.start.count) % Time.nanosPerDay

instance (range : TimeRange) (t : TimeOfDay) : Decidable (range.Spans t) :=
  inferInstanceAs (Decidable (_ < _))

def turn (range : TimeRange) (n : Int) : TimeRange :=
  ⟨range.start.turn n, range.stop.turn n⟩

/-- The range from the stop of another one to its start. -/
def reverse (range : TimeRange) : TimeRange :=
  ⟨range.stop, range.start⟩

variable {range : TimeRange} {t : TimeOfDay}

/-- A window either lies within the day or goes on past midnight. -/
theorem contains_iff : range.contains t = true ↔
    (range.start ≤ t ∧ t < range.stop) ∨
      (range.stop < range.start ∧ (range.start ≤ t ∨ t < range.stop)) := by
  by_cases hwraps : range.stop < range.start
  · simp only [contains, wraps, hwraps, decide_true, if_true, Bool.or_eq_true, decide_eq_true_eq,
      true_and]
    exact ⟨.inr, fun h => h.elim (fun hboth => .inl hboth.1) id⟩
  · simp only [contains, wraps, hwraps, decide_false, Bool.false_eq_true, if_false,
      Bool.and_eq_true, decide_eq_true_eq, false_and, or_false]

/-- Outside leap seconds a range contains the times on its arc. -/
theorem contains_iff_spans (hrange : range.isPlain = true) (ht : t.isPlain = true) :
    range.contains t = true ↔ range.Spans t := by
  obtain ⟨hstart, hstop⟩ := Bool.and_eq_true_iff.mp hrange
  have htime := TimeOfDay.count_bounds ht
  have hfirst := TimeOfDay.count_bounds hstart
  have hlast := TimeOfDay.count_bounds hstop
  rw [contains_iff, TimeOfDay.le_iff, TimeOfDay.lt_iff_count ht hstart,
    TimeOfDay.lt_iff_count ht hstop, TimeOfDay.lt_iff_count hstop hstart, Spans]
  simp only [Time.nanosPerDay, Time.secondsPerDay, Time.nanosPerSecond] at *
  omega

theorem isPlain_turn (range : TimeRange) (n : Int) : (range.turn n).isPlain = true :=
  Bool.and_eq_true_iff.mpr ⟨range.start.isPlain_turn n, range.stop.isPlain_turn n⟩

theorem spans_turn (n : Int) : (range.turn n).Spans (t.turn n) ↔ range.Spans t := by
  simp only [Spans, turn, TimeOfDay.count_turn, ← Int.sub_emod, Int.add_sub_add_right]

theorem contains_turn (hrange : range.isPlain = true) (ht : t.isPlain = true) (n : Int) :
    (range.turn n).contains (t.turn n) = range.contains t := by
  rw [Bool.eq_iff_iff, contains_iff_spans (range.isPlain_turn n) (t.isPlain_turn n), spans_turn,
    contains_iff_spans hrange ht]

/-- A range without length contains nothing. -/
theorem contains_of_start_eq_stop (h : range.start = range.stop) (t : TimeOfDay) :
    range.contains t = false := by
  rw [← Bool.not_eq_true, contains_iff, h]
  simp only [TimeOfDay.le_iff, TimeOfDay.lt_iff]
  omega

/-- A range and its reverse share the day between them. -/
theorem contains_reverse (h : range.start ≠ range.stop) (t : TimeOfDay) :
    range.reverse.contains t = !range.contains t := by
  rw [Bool.eq_iff_iff, Bool.not_eq_true', ← Bool.not_eq_true, contains_iff, contains_iff]
  have hapart := TimeOfDay.lt_or_gt_of_ne h
  simp only [reverse, TimeOfDay.le_iff, TimeOfDay.lt_iff] at *
  omega

end TimeRange

namespace TimeWindows

def isPlain (w : TimeWindows) : Bool :=
  (w.allowed ++ w.denied).all (·.isPlain)

/-- Whether a time lies on none of the denied arcs, and on one of the allowed ones if there
are any. -/
structure Accepts (w : TimeWindows) (t : TimeOfDay) : Prop where
  undenied : ∀ x ∈ w.denied, ¬ x.Spans t
  allowed : w.allowed = [] ∨ ∃ x ∈ w.allowed, x.Spans t

theorem permits_iff_accepts {w : TimeWindows} {t : TimeOfDay} (hw : w.isPlain = true)
    (ht : t.isPlain = true) : w.permits t = true ↔ w.Accepts t := by
  have harc {x : TimeRange} (hx : x ∈ w.allowed ++ w.denied) :
      x.contains t = true ↔ x.Spans t :=
    TimeRange.contains_iff_spans (List.all_eq_true.mp hw x hx) ht
  rw [permits_iff]
  constructor
  · rintro ⟨hnone, hsome⟩
    refine ⟨fun x hx hspans => ?_, hsome.imp_right ?_⟩
    · exact hnone x hx ((harc (List.mem_append_right _ hx)).mpr hspans)
    · rintro ⟨x, hx, hcontains⟩
      exact ⟨x, hx, (harc (List.mem_append_left _ hx)).mp hcontains⟩
  · rintro ⟨hnone, hsome⟩
    refine ⟨fun x hx hcontains => ?_, hsome.imp_right ?_⟩
    · exact hnone x hx ((harc (List.mem_append_right _ hx)).mp hcontains)
    · rintro ⟨x, hx, hspans⟩
      exact ⟨x, hx, (harc (List.mem_append_left _ hx)).mpr hspans⟩

end TimeWindows

namespace Conditions

variable {c : Conditions} {r : Request} {t : TimeOfDay}

/-- The windows of conditions, which are blank where there is no time group. -/
def windows (c : Conditions) : TimeWindows :=
  c.time.getD .blank

/-- Conditions on the time of day alone match by their windows, in either mode. -/
theorem matches_of_only_time (honly : ∀ kind, c.Restricts kind → kind = .time) :
    c.matches r t = true ↔ c.windows.permits t = true := by
  have hother {a : Aspect} (ha : a.group ≠ .time) : c.Admits r t a :=
    admits_of_not_restricts fun hentries => ha (honly _ hentries)
  rw [windows, ← admits_time (r := r)]
  cases hmode : c.mode with
  | all =>
      rw [matches_all_iff hmode]
      constructor
      · intro hadmits
        exact hadmits .time
      · intro htime a
        cases a with
        | time => exact htime
        | _ => exact hother (by decide)
  | any =>
      rw [matches_any_iff hmode]
      constructor
      · intro hadmits
        by_cases hentries : c.Restricts .time
        · obtain ⟨kind, hkind, hgroup⟩ := hadmits ⟨_, hentries⟩
          exact hgroup .time (honly kind hkind).symm
        · exact admits_of_not_restricts hentries
      · rintro htime ⟨kind, hkind⟩
        refine ⟨kind, hkind, ?_⟩
        rw [honly kind hkind]
        intro a ha
        cases a with
        | time => exact htime
        | _ => cases ha

/-- The windows have no part in what the lists on another aspect let pass. -/
theorem admits_without_time {a : Aspect} (ha : a.group ≠ .time) :
    { c with time := none }.Admits r t a ↔ c.Admits r t a := by
  cases a with
  | time => exact absurd rfl ha
  | _ => exact ⟨fun h => ⟨h.undenied, h.allowed⟩, fun h => ⟨h.undenied, h.allowed⟩⟩

/-- Where all groups must pass, the windows and the other groups match each for itself. -/
theorem matches_all_split (h : c.mode = .all) :
    c.matches r t = true ↔
      c.windows.permits t = true ∧ { c with time := none }.matches r t = true := by
  rw [windows, ← admits_time (r := r), matches_all_iff h,
    matches_all_iff (c := { c with time := none }) h]
  constructor
  · intro hadmits
    refine ⟨hadmits .time, fun a => ?_⟩
    cases a with
    | time => exact ⟨fun e he => (by cases he), .inl rfl⟩
    | _ => exact (admits_without_time (by decide)).mpr (hadmits _)
  · rintro ⟨htime, hothers⟩ a
    cases a with
    | time => exact htime
    | _ => exact (admits_without_time (by decide)).mp (hothers _)

end Conditions

/-- Ranges of the day are arcs of the clock. Outside leap seconds a range contains the
times that are fewer nanoseconds past its start, around the clock, than its stop, so that
turning the clock changes no answer. A range without length contains nothing, and any
other one shares the day with its reverse. Conditions on the time of day accept the times
on none of their denied arcs and on one of their allowed ones; where all groups must pass,
conditions with other groups match where the windows and those groups do. -/
theorem day_ranges_circular {t : TimeOfDay} (ht : t.isPlain = true) :
    (∀ range : TimeRange, range.isPlain = true →
      (range.contains t = true ↔ range.Spans t) ∧
      ∀ n : Int, (range.turn n).contains (t.turn n) = range.contains t) ∧
    (∀ range : TimeRange, range.start = range.stop → range.contains t = false) ∧
    (∀ range : TimeRange, range.start ≠ range.stop →
      range.reverse.contains t = !range.contains t) ∧
    ∀ (c : Conditions) (r : Request), c.windows.isPlain = true →
      ((∀ kind, c.Restricts kind → kind = .time) →
        (c.matches r t = true ↔ c.windows.Accepts t)) ∧
      (c.mode = .all →
        (c.matches r t = true ↔
          c.windows.Accepts t ∧ { c with time := none }.matches r t = true)) := by
  refine ⟨?_, ?_, ?_, ?_⟩
  · intro range hrange
    exact ⟨TimeRange.contains_iff_spans hrange ht, TimeRange.contains_turn hrange ht⟩
  · intro range h
    exact TimeRange.contains_of_start_eq_stop h t
  · intro range h
    exact TimeRange.contains_reverse h t
  · intro c r hplain
    have haccepts := TimeWindows.permits_iff_accepts hplain ht
    constructor
    · intro honly
      exact (Conditions.matches_of_only_time honly).trans haccepts
    · intro hall
      rw [Conditions.matches_all_split hall, haccepts]

def oClock (hour : Int) : TimeOfDay :=
  .ofCount (hour * 3600 * Time.nanosPerSecond)

/-- From ten in the evening to six in the morning, but not in the nanosecond before midnight
and the hour after it. -/
def sampleNight : TimeWindows :=
  ⟨[⟨oClock 22, oClock 6⟩], [⟨.ofCount (-1), oClock 1⟩]⟩

/-- Three in the morning lies on the arc of the night, which turned on by twelve hours
contains three in the afternoon. -/
theorem day_ranges_circular_sample :
    let three := oClock 3
    let night : TimeRange := ⟨oClock 22, oClock 6⟩
    let halfDay := 12 * 3600 * Time.nanosPerSecond
    let c := { Conditions.blank with time := some sampleNight }
    three.isPlain = true ∧ night.Spans three ∧
      (night.turn halfDay).contains (three.turn halfDay) = true ∧
      night.reverse.contains three = false ∧ sampleNight.Accepts three ∧
      ∀ r, c.matches r three = true := by
  intro three night halfDay c
  have hthree : three.isPlain = true := by decide
  obtain ⟨harcs, -, hreverse, hconditions⟩ := day_ranges_circular hthree
  obtain ⟨hspans, hturn⟩ := harcs night (by decide)
  have hcontains : night.contains three = true := by decide
  have haccepts : sampleNight.Accepts three :=
    ⟨by decide, .inr ⟨night, by decide, hspans.mp hcontains⟩⟩
  refine ⟨hthree, hspans.mp hcontains, (hturn _).trans hcontains, ?_, haccepts, ?_⟩
  · rw [hreverse night (by decide), hcontains]
    rfl
  · intro r
    refine ((hconditions c r (by decide)).1 ?_).mpr haccepts
    intro kind hentries
    cases kind with
    | time => rfl
    | _ => exact absurd hentries (Conditions.isEmpty_group_iff.mp rfl)

end DecisionPoint
