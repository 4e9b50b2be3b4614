import DecisionPoint.Proofs.Time.Received
import Mathlib.Data.List.Forall2

/-!
The wire profile among the forms of a timestamp. A text of its shape has a digit of some
script in each place of a digit. Read by its columns, by RFC 3339 or field by field with
the room that a pattern leaves, it is the same instant, or none where a digit is not one
of `0` to `9` or the fields name no instant.
-/

namespace DecisionPoint.Time.Instant

open Text

/-! ## Digits of other scripts -/

/-- The number that some characters spell, if all of them are digits `0` to `9`. -/
def number? (ds : List Char) : Option Nat :=
  if ds.all Char.isDigit then some (digitsValue ds) else none

theorem ne_of_isDecimalDigit {c mark : Char} (hmark : isDecimalDigit mark = false)
    (h : isDecimalDigit c = true) : c ≠ mark := by
  intro heq
  rw [heq, hmark] at h
  cases h

theorem isBlank_of_isDecimalDigit {c : Char} (h : isDecimalDigit c = true) :
    isBlank c = false := by
  have htable : ∀ first ∈ decimalZeros, ∀ k < 10, isBlank (Char.ofNat (first + k)) = false := by
    decide +kernel
  obtain ⟨first, hfirst, hrun⟩ := List.any_eq_true.mp h
  rw [Bool.and_eq_true, decide_eq_true_eq, decide_eq_true_eq] at hrun
  have hdigit := htable first hfirst (c.toNat - first) (by omega)
  rwa [Nat.add_sub_cancel' hrun.1, Char.ofNat_toNat] at hdigit

/-- Digits that spell no number have a first one of a script other than ASCII. -/
theorem number?_eq_none {ds : List Char} (hds : ∀ c ∈ ds, isDecimalDigit c = true)
    (h : number? ds = none) :
    ∃ front c back, ds = front ++ c :: back ∧ (∀ d ∈ front, d.isDigit = true) ∧
      c.isDigit = false ∧ isDecimalDigit c = true := by
  have hnot : ds.all Char.isDigit = false := by
    simpa [number?] using h
  obtain ⟨x, hx, hforeign⟩ := List.all_eq_false.mp hnot
  have hfound : (ds.find? (!·.isDigit)).isSome = true :=
    List.find?_isSome.mpr ⟨x, hx, by simpa using hforeign⟩
  obtain ⟨c, hc⟩ := Option.isSome_iff_exists.mp hfound
  obtain ⟨hfirst, front, back, rfl, hfront⟩ := List.find?_eq_some_iff_append.mp hc
  refine ⟨front, c, back, rfl, ?_, by simpa using hfirst, hds c (by simp)⟩
  intro d hd
  simpa using hfront d hd

theorem number?_eq_some {ds : List Char} {n : Nat} (h : number? ds = some n) :
    (∀ d ∈ ds, d.isDigit = true) ∧ digitsValue ds = n := by
  unfold number? at h
  split at h
  · rename_i hall
    exact ⟨List.all_eq_true.mp hall, Option.some.inj h⟩
  · cases h

structure IsField (width : Nat) (ds : List Char) : Prop where
  length : ds.length = width
  decimal : ∀ c ∈ ds, isDecimalDigit c = true

/-- Whether a reading comes to nothing where it goes on with a digit of any script. -/
def RefusesDigit {β : Type} (next : Nat × List Char → Option β) : Prop :=
  ∀ n c tail, isDecimalDigit c = true → next (n, c :: tail) = none

section Readers

variable {β : Type} {least width : Nat} {ds rest : List Char}
  {next : Nat × List Char → Option β}

/-- A field is read as the number that all of it spells, or the reading comes to nothing. -/
theorem readDigits_bind (hfield : IsField width ds) (hleast : least ≤ width)
    (hnext : RefusesDigit next) :
    (readDigits least width (ds ++ rest)).bind next =
      (number? ds).bind fun n => next (n, rest) := by
  have hlength := hfield.length
  cases hnumber : number? ds with
  | some n =>
      obtain ⟨hdigits, rfl⟩ := number?_eq_some hnumber
      rw [readDigits_append hdigits (by omega) (Nat.le_of_eq hlength) (.inl hlength)]
      rfl
  | none =>
      obtain ⟨front, c, back, rfl, hfront, hforeign, hdecimal⟩ :=
        number?_eq_none hfield.decimal hnumber
      rw [List.length_append, List.length_cons] at hlength
      rw [List.append_assoc, List.cons_append, readDigits, takeWhile_take_run hfront (by omega)
        (.inr (endsRun_cons hforeign)), List.drop_left]
      split
      · rfl
      · exact hnext _ c _ hdecimal

theorem readShort_bind (hfield : IsField 2 ds) (hnext : RefusesDigit next) :
    (readShort (ds ++ rest)).bind next = (number? ds).bind fun n => next (n, rest) := by
  have hstart : skipBlank (ds ++ rest) = ds ++ rest := by
    cases ds with
    | nil => cases hfield.length
    | cons d ds => exact skipBlank_cons _ (isBlank_of_isDecimalDigit (hfield.decimal d (by simp)))
  rw [readShort, hstart, readDigits_bind hfield (by decide) hnext]

/-- A year of four digits has no sign, so that its digits come first. -/
theorem readYear_bind {next : Int × List Char → Option β} (hfield : IsField 4 ds)
    (hnext : RefusesDigit fun p => next (p.1, p.2)) :
    (readYear (ds ++ rest)).bind next = (number? ds).bind fun n => next (n, rest) := by
  have hplain : readYear (ds ++ rest) =
      (readDigits 1 4 (ds ++ rest)).map fun p => ((p.1 : Int), p.2) := by
    cases ds with
    | nil => cases hfield.length
    | cons d ds =>
        have hdecimal : isDecimalDigit d = true := hfield.decimal d (by simp)
        rw [readYear, List.cons_append, skipBlank_cons _ (isBlank_of_isDecimalDigit hdecimal)]
        split
        case h_3 => rfl
        all_goals
          rename_i heq
          cases heq
          exact absurd hdecimal (by decide)
  rw [hplain, Option.bind_map, ← readDigits_bind hfield (by decide : 1 ≤ 4) hnext]
  rfl

/-- Three digits of a fraction are read as the milliseconds that all of them spell, or the
reading comes to nothing. -/
theorem readFraction_bind (hfield : IsField 3 ds) (hnext : RefusesDigit next) :
    (readFraction ('.' :: (ds ++ ['Z']))).bind next =
      (number? ds).bind fun n => next (n * 1000000, ['Z']) := by
  have hlength := hfield.length
  rw [readFraction]
  cases hnumber : number? ds with
  | some n =>
      obtain ⟨hdigits, rfl⟩ := number?_eq_some hnumber
      have htake : ((ds ++ ['Z']).take 9).takeWhile Char.isDigit = ds :=
        takeWhile_take_run hdigits (by omega) (.inr (endsRun_cons (by decide)))
      have hsome : ds ≠ [] := List.ne_nil_of_length_pos (by omega)
      simp only [readNanos, htake, if_neg hsome, List.drop_left]
      rw [hlength]
      rfl
  | none =>
      obtain ⟨front, c, back, rfl, hfront, hforeign, hdecimal⟩ :=
        number?_eq_none hfield.decimal hnumber
      rw [List.length_append, List.length_cons] at hlength
      have htake : ((front ++ c :: back ++ ['Z']).take 9).takeWhile Char.isDigit = front := by
        rw [List.append_assoc, List.cons_append]
        exact takeWhile_take_run hfront (by omega) (.inr (endsRun_cons hforeign))
      simp only [readNanos, htake]
      split
      · rfl
      · rw [List.append_assoc, List.drop_left, List.cons_append,
          List.dropWhile_cons_of_neg (by simp [hforeign])]
        exact hnext _ c _ hdecimal

end Readers

theorem readMark_cons (mark : Char) (rest : List Char) :
    readMark mark (mark :: rest) = some rest :=
  if_pos rfl

theorem readMark_digit {c mark : Char} {tail : List Char} (hmark : isDecimalDigit mark = false)
    (h : isDecimalDigit c = true) : readMark mark (c :: tail) = none :=
  if_neg (ne_of_isDecimalDigit hmark h)

theorem readDivider_digit {c : Char} {tail : List Char} (h : isDecimalDigit c = true) :
    readDivider (c :: tail) = none := by
  unfold readDivider
  split
  case h_4 => rfl
  all_goals
    rename_i heq
    cases heq
    exact absurd h (by decide)

theorem readFraction_digit {c : Char} {tail : List Char} (h : isDecimalDigit c = true) :
    readFraction (c :: tail) = some (0, c :: tail) := by
  unfold readFraction
  split
  · rename_i heq
    cases heq
    exact absurd h (by decide)
  · rfl

theorem readOffset_digit {separator : List Char → Option (List Char)} {c : Char}
    {tail : List Char} (h : isDecimalDigit c = true) : readOffset separator (c :: tail) = none := by
  have hsign : readOffsetSign (c :: tail) = none := by
    unfold readOffsetSign
    split
    case h_4 => rfl
    all_goals
      rename_i heq
      cases heq
      exact absurd h (by decide)
  unfold readOffset
  split
  case h_3 => rw [hsign]; rfl
  all_goals
    rename_i heq
    cases heq
    exact absurd h (by decide)

section Refusals

variable {β : Type}

theorem refusesDigit_mark {mark : Char} (hmark : isDecimalDigit mark = false)
    (next : Nat × List Char → List Char → Option β) :
    RefusesDigit fun p => (readMark mark p.2).bind (next p) := by
  intro n c tail hc
  simp only [readMark_digit hmark hc, Option.bind_none]

theorem refusesDigit_divider (next : Nat × List Char → List Char → Option β) :
    RefusesDigit fun p => (readDivider p.2).bind (next p) := by
  intro n c tail hc
  simp only [readDivider_digit hc, Option.bind_none]

theorem refusesDigit_offset (separator : List Char → Option (List Char))
    (next : Nat × List Char → Int × List Char → Option β) :
    RefusesDigit fun p => (readOffset separator p.2).bind (next p) := by
  intro n c tail hc
  simp only [readOffset_digit hc, Option.bind_none]

/-- A fraction that is not there is skipped, so what comes after it must refuse. -/
theorem RefusesDigit.fraction {next : Nat × List Char → Nat × List Char → Option β}
    (h : ∀ p, RefusesDigit (next p)) : RefusesDigit fun p => (readFraction p.2).bind (next p) := by
  intro n c tail hc
  simp only [readFraction_digit hc, Option.bind_some]
  exact h _ 0 c tail hc

end Refusals

/-! ## The fields of the profile -/

structure Fields where
  year : List Char
  month : List Char
  day : List Char
  hour : List Char
  minute : List Char
  second : List Char
  millis : List Char

namespace Fields

def text (f : Fields) : List Char :=
  f.year ++ '-' :: (f.month ++ '-' :: (f.day ++ 'T' :: (f.hour ++ ':' :: (f.minute ++ ':' ::
    (f.second ++ '.' :: (f.millis ++ ['Z']))))))

structure Fit (f : Fields) : Prop where
  year : IsField 4 f.year
  month : IsField 2 f.month
  day : IsField 2 f.day
  hour : IsField 2 f.hour
  minute : IsField 2 f.minute
  second : IsField 2 f.second
  millis : IsField 3 f.millis

def instant? (f : Fields) : Option Instant := do
  let year ← number? f.year
  let month ← number? f.month
  let day ← number? f.day
  let hour ← number? f.hour
  let minute ← number? f.minute
  let second ← number? f.second
  let millis ← number? f.millis
  ofFields? ⟨year, month, day⟩ hour minute second (millis * 1000000) 0

end Fields

/-! ## The shape of the profile -/

/-- Whether a character may stand in a place of a shape: any digit for `0`, and only itself
for another character. -/
def FitsPlace (place c : Char) : Prop :=
  if place = '0' then isDecimalDigit c = true else c = place

/-- A text has the shape of the profile where each of its characters fits its place. -/
theorem hasProfile_iff {cs : List Char} :
    hasProfile cs = true ↔ List.Forall₂ FitsPlace profile cs := by
  have hplace (place c : Char) :
      (if place = '0' then isDecimalDigit c else c == place) = true ↔ FitsPlace place c := by
    unfold FitsPlace
    split
    · exact Iff.rfl
    · exact beq_iff_eq
  rw [hasProfile, Bool.and_eq_true, beq_iff_eq, List.forall₂_iff_zip, List.all_eq_true]
  simp only [hplace, Prod.forall, eq_comm (a := cs.length)]

theorem forall₂_field {width : Nat} {shape cs : List Char} :
    List.Forall₂ FitsPlace (List.replicate width '0' ++ shape) cs ↔
      ∃ ds rest, IsField width ds ∧ List.Forall₂ FitsPlace shape rest ∧ cs = ds ++ rest := by
  induction width generalizing cs with
  | zero =>
      constructor
      · intro h
        exact ⟨[], cs, ⟨rfl, by simp⟩, h, rfl⟩
      · rintro ⟨ds, rest, hfield, h, rfl⟩
        rwa [List.eq_nil_of_length_eq_zero hfield.length]
  | succ width ih =>
      rw [List.replicate_succ, List.cons_append, List.forall₂_cons_left_iff]
      constructor
      · rintro ⟨c, tail, hc, htail, rfl⟩
        obtain ⟨ds, rest, hfield, h, rfl⟩ := ih.mp htail
        exact ⟨c :: ds, rest, ⟨congrArg Nat.succ hfield.length,
          List.forall_mem_cons.mpr ⟨hc, hfield.decimal⟩⟩, h, rfl⟩
      · rintro ⟨ds, rest, hfield, h, rfl⟩
        obtain ⟨c, ds, rfl⟩ := List.exists_cons_of_length_eq_add_one hfield.length
        obtain ⟨hc, hds⟩ := List.forall_mem_cons.mp hfield.decimal
        exact ⟨c, ds ++ rest, hc,
          ih.mpr ⟨ds, rest, ⟨Nat.succ.inj hfield.length, hds⟩, h, rfl⟩, rfl⟩

theorem forall₂_mark {mark : Char} (hmark : mark ≠ '0') {shape cs : List Char} :
    List.Forall₂ FitsPlace (mark :: shape) cs ↔
      ∃ rest, List.Forall₂ FitsPlace shape rest ∧ cs = mark :: rest := by
  rw [List.forall₂_cons_left_iff]
  simp only [FitsPlace, if_neg hmark]
  constructor
  · rintro ⟨c, rest, rfl, h, rfl⟩
    exact ⟨rest, h, rfl⟩
  · rintro ⟨rest, h, rfl⟩
    exact ⟨mark, rest, rfl, h, rfl⟩

/-- A field and the mark behind it. -/
theorem forall₂_step {width : Nat} {mark : Char} (hmark : mark ≠ '0') {shape cs : List Char} :
    List.Forall₂ FitsPlace (List.replicate width '0' ++ mark :: shape) cs ↔
      ∃ ds rest, IsField width ds ∧ List.Forall₂ FitsPlace shape rest ∧
        cs = ds ++ mark :: rest := by
  rw [forall₂_field]
  constructor
  · rintro ⟨ds, tail, hfield, htail, rfl⟩
    obtain ⟨rest, h, rfl⟩ := (forall₂_mark hmark).mp htail
    exact ⟨ds, rest, hfield, h, rfl⟩
  · rintro ⟨ds, rest, hfield, h, rfl⟩
    exact ⟨ds, mark :: rest, hfield, (forall₂_mark hmark).mpr ⟨rest, h, rfl⟩, rfl⟩

theorem profile_eq : profile =
    List.replicate 4 '0' ++ '-' :: (List.replicate 2 '0' ++ '-' :: (List.replicate 2 '0' ++
      'T' :: (List.replicate 2 '0' ++ ':' :: (List.replicate 2 '0' ++ ':' ::
        (List.replicate 2 '0' ++ '.' :: (List.replicate 3 '0' ++ ['Z'])))))) :=
  rfl

/-- A text in the shape of the profile has fields that fill their columns. -/
theorem exists_fields {cs : List Char} (h : hasProfile cs = true) :
    ∃ f : Fields, f.Fit ∧ cs = f.text := by
  rw [hasProfile_iff, profile_eq] at h
  obtain ⟨year, _, hyear, h₁, rfl⟩ := (forall₂_step (by decide)).mp h
  obtain ⟨month, _, hmonth, h₂, rfl⟩ := (forall₂_step (by decide)).mp h₁
  obtain ⟨day, _, hday, h₃, rfl⟩ := (forall₂_step (by decide)).mp h₂
  obtain ⟨hour, _, hhour, h₄, rfl⟩ := (forall₂_step (by decide)).mp h₃
  obtain ⟨minute, _, hminute, h₅, rfl⟩ := (forall₂_step (by decide)).mp h₄
  obtain ⟨second, _, hsecond, h₆, rfl⟩ := (forall₂_step (by decide)).mp h₅
  obtain ⟨millis, _, hmillis, h₇, rfl⟩ := (forall₂_step (by decide)).mp h₆
  obtain rfl := List.forall₂_nil_left_iff.mp h₇
  exact ⟨⟨year, month, day, hour, minute, second, millis⟩,
    ⟨hyear, hmonth, hday, hhour, hminute, hsecond, hmillis⟩, rfl⟩

/-- Fields that fill their columns make a text in the shape of the profile. -/
theorem Fields.Fit.hasProfile {f : Fields} (h : f.Fit) : hasProfile f.text = true := by
  rw [hasProfile_iff, profile_eq]
  refine (forall₂_step (by decide)).mpr ⟨_, _, h.year, ?_, rfl⟩
  refine (forall₂_step (by decide)).mpr ⟨_, _, h.month, ?_, rfl⟩
  refine (forall₂_step (by decide)).mpr ⟨_, _, h.day, ?_, rfl⟩
  refine (forall₂_step (by decide)).mpr ⟨_, _, h.hour, ?_, rfl⟩
  refine (forall₂_step (by decide)).mpr ⟨_, _, h.minute, ?_, rfl⟩
  refine (forall₂_step (by decide)).mpr ⟨_, _, h.second, ?_, rfl⟩
  exact (forall₂_step (by decide)).mpr ⟨_, _, h.millis, .nil, rfl⟩

/-! ## The readers of the profile -/

/-- The columns of the profile are where the fields stand. -/
theorem ofColumns?_text {f : Fields} (h : f.Fit) : ofColumns? f.text = f.instant? := by
  obtain ⟨year, month, day, hour, minute, second, millis⟩ := f
  obtain ⟨y1, y2, y3, y4, rfl⟩ := List.length_eq_four.mp h.year.length
  obtain ⟨m1, m2, rfl⟩ := List.length_eq_two.mp h.month.length
  obtain ⟨d1, d2, rfl⟩ := List.length_eq_two.mp h.day.length
  obtain ⟨h1, h2, rfl⟩ := List.length_eq_two.mp h.hour.length
  obtain ⟨n1, n2, rfl⟩ := List.length_eq_two.mp h.minute.length
  obtain ⟨s1, s2, rfl⟩ := List.length_eq_two.mp h.second.length
  obtain ⟨f1, f2, f3, rfl⟩ := List.length_eq_three.mp h.millis.length
  rfl

/-- RFC 3339 names the same instant as the fields of the profile. -/
theorem ofRfc3339?_text {f : Fields} (h : f.Fit) : ofRfc3339? f.text = f.instant? := by
  simp only [ofRfc3339?, Fields.text, Fields.instant?, Option.bind_eq_bind]
  rw [readDigits_bind h.year (by decide) (refusesDigit_mark (by decide) _)]
  refine Option.bind_congr fun year _ => ?_
  rw [readMark_cons, Option.bind_some,
    readDigits_bind h.month (by decide) (refusesDigit_mark (by decide) _)]
  refine Option.bind_congr fun month _ => ?_
  rw [readMark_cons, Option.bind_some, readDigits_bind h.day (by decide) (refusesDigit_divider _)]
  refine Option.bind_congr fun day _ => ?_
  rw [readDivider, Option.bind_some,
    readDigits_bind h.hour (by decide) (refusesDigit_mark (by decide) _)]
  refine Option.bind_congr fun hour _ => ?_
  rw [readMark_cons, Option.bind_some,
    readDigits_bind h.minute (by decide) (refusesDigit_mark (by decide) _)]
  refine Option.bind_congr fun minute _ => ?_
  rw [readMark_cons, Option.bind_some,
    readDigits_bind h.second (by decide)
      (RefusesDigit.fraction fun _ => refusesDigit_offset _ _)]
  refine Option.bind_congr fun second _ => ?_
  rw [readFraction_bind h.millis (refusesDigit_offset _ _)]
  refine Option.bind_congr fun millis _ => ?_
  rfl

/-- Reads the fields of the profile one after the other, with the room that a pattern leaves
them: blanks before a number, fewer digits, a sign before the year, any fraction or none. -/
def ofPattern? (cs : List Char) : Option Instant := do
  let (year, rest) ← readYear cs
  let rest ← readMark '-' rest
  let (month, rest) ← readShort rest
  let rest ← readMark '-' rest
  let (day, rest) ← readShort rest
  let rest ← readMark 'T' rest
  let (hour, rest) ← readShort rest
  let rest ← readMark ':' rest
  let (minute, rest) ← readShort rest
  let rest ← readMark ':' rest
  let (second, rest) ← readShort rest
  let (nanos, rest) ← readFraction rest
  let rest ← readMark 'Z' rest
  if rest = [] then ofFields? ⟨year, month, day⟩ hour minute second nanos 0 else none

/-- A pattern names the same instant as the fields of the profile. -/
theorem ofPattern?_text {f : Fields} (h : f.Fit) : ofPattern? f.text = f.instant? := by
  simp only [ofPattern?, Fields.text, Fields.instant?, Option.bind_eq_bind]
  rw [readYear_bind h.year (refusesDigit_mark (by decide) _)]
  refine Option.bind_congr fun year _ => ?_
  rw [readMark_cons, Option.bind_some, readShort_bind h.month (refusesDigit_mark (by decide) _)]
  refine Option.bind_congr fun month _ => ?_
  rw [readMark_cons, Option.bind_some, readShort_bind h.day (refusesDigit_mark (by decide) _)]
  refine Option.bind_congr fun day _ => ?_
  rw [readMark_cons, Option.bind_some, readShort_bind h.hour (refusesDigit_mark (by decide) _)]
  refine Option.bind_congr fun hour _ => ?_
  rw [readMark_cons, Option.bind_some, readShort_bind h.minute (refusesDigit_mark (by decide) _)]
  refine Option.bind_congr fun minute _ => ?_
  rw [readMark_cons, Option.bind_some, readShort_bind h.second
    (RefusesDigit.fraction fun _ => refusesDigit_mark (by decide) _)]
  refine Option.bind_congr fun second _ => ?_
  rw [readFraction_bind h.millis (refusesDigit_mark (by decide) _)]
  refine Option.bind_congr fun millis _ => ?_
  rfl

/-! ## Writing and reading -/

/-- The fields of an instant of a year that the profile has room for. -/
def writtenFields (t : Instant) : Fields where
  year := padded 4 (Date.ofDay t.day).year.natAbs
  month := padded 2 (Date.ofDay t.day).month
  day := padded 2 (Date.ofDay t.day).day
  hour := padded 2 (t.secondOfDay / 3600)
  minute := padded 2 (t.secondOfDay / 60 % 60)
  second := padded 2 (t.secondOfDay % 60 + t.nanos / nanosPerSecond)
  millis := padded 3 (t.nanos % nanosPerSecond / 1000000)

theorem isField_padded {width n : Nat} (hwidth : 0 < width) (h : n < Nat.pow 10 width) :
    IsField width (padded width n) :=
  ⟨length_padded hwidth h, fun _ hc => isDecimalDigit_of_isDigit (isDigit_of_mem_padded hc)⟩

theorem isWireYear_iff {year : Int} : isWireYear year = true ↔ 0 ≤ year ∧ year ≤ 9999 := by
  rw [isWireYear, Bool.and_eq_true, decide_eq_true_eq, decide_eq_true_eq]

theorem fit_writtenFields {t : Instant} (h : isWireYear (Date.ofDay t.day).year = true) :
    t.writtenFields.Fit := by
  have hyear := isWireYear_iff.mp h
  have hvalid := Date.isValid_ofDay t.day
  simp only [Date.isValid, Bool.and_eq_true, decide_eq_true_eq] at hvalid
  have hdays := Date.daysInMonth_le (Date.ofDay t.day).year (Date.ofDay t.day).month
  have hhour := t.hour_lt
  have hsecond := t.writtenSecond_le
  have htwo : Nat.pow 10 2 = 100 := rfl
  have hthree : Nat.pow 10 3 = 1000 := rfl
  have hfour : Nat.pow 10 4 = 10000 := rfl
  exact
    { year := isField_padded (by decide) (by omega)
      month := isField_padded (by decide) (by omega)
      day := isField_padded (by decide) (by omega)
      hour := isField_padded (by decide) (by omega)
      minute := isField_padded (by decide) (by omega)
      second := isField_padded (by decide) (by omega)
      millis := isField_padded (by decide) (by simp only [nanosPerSecond]; omega) }

theorem wireText_eq_text {t : Instant} (h : isWireYear (Date.ofDay t.day).year = true) :
    t.wireText = t.writtenFields.text := by
  simp only [wireText, textToSecond, yearText, if_pos (isWireYear_iff.mp h), writtenFields,
    Fields.text, List.append_assoc, List.cons_append]

theorem hasProfile_wireText {t : Instant} (h : isWireYear (Date.ofDay t.day).year = true) :
    hasProfile t.wireText = true := by
  rw [wireText_eq_text h]
  exact (fit_writtenFields h).hasProfile

theorem ofColumns?_eq_ofRfc3339? {cs : List Char} (h : hasProfile cs = true) :
    ofColumns? cs = ofRfc3339? cs := by
  obtain ⟨f, hfit, rfl⟩ := exists_fields h
  rw [ofColumns?_text hfit, ofRfc3339?_text hfit]

theorem ofColumns?_eq_ofPattern? {cs : List Char} (h : hasProfile cs = true) :
    ofColumns? cs = ofPattern? cs := by
  obtain ⟨f, hfit, rfl⟩ := exists_fields h
  rw [ofColumns?_text hfit, ofPattern?_text hfit]

/-- In the profile there is nothing to cut. -/
theorem ofColumns?_truncated (cs : List Char) :
    (ofColumns? cs).map truncateToMillis = ofColumns? cs := by
  cases h : ofColumns? cs with
  | none => rfl
  | some t => rw [Option.map_some, truncateToMillis_eq_self (of_ofColumns? h).1]

/-- The profile and RFC 3339 read a text in the shape of the profile alike. -/
theorem ofColumns?_eq_truncated {cs : List Char} (h : hasProfile cs = true) :
    ofColumns? cs = (ofRfc3339? cs).map truncateToMillis := by
  rw [← ofColumns?_eq_ofRfc3339? h, ofColumns?_truncated]

/-- An instant of a wire year is written in the profile, a leap second included, and read
back cut to milliseconds; in any other year its text is refused. Whatever has the shape of
the profile, a date of the calendar or not, its columns, a pattern and RFC 3339 read alike.
What is accepted has whole milliseconds. -/
theorem wire_text_codec :
    (∀ t : Instant, isWireYear (Date.ofDay t.day).year = true →
      hasProfile t.wireText = true ∧ ofWireText? t.wireText = some t.truncateToMillis) ∧
    (∀ t : Instant, isWireYear (Date.ofDay t.day).year = false → ofWireText? t.wireText = none) ∧
    (∀ cs, hasProfile (trimBlank cs) = true →
      ofWireText? cs = ofColumns? (trimBlank cs) ∧
        ofColumns? (trimBlank cs) = ofPattern? (trimBlank cs) ∧
        ofColumns? (trimBlank cs) = (ofRfc3339? (trimBlank cs)).map truncateToMillis) ∧
    ∀ cs t, ofWireText? cs = some t → t.nanos % 1000000 = 0 := by
  refine ⟨fun t hyear => ⟨hasProfile_wireText hyear, ?_⟩, fun t hyear => ?_,
    fun cs hprofile => ⟨if_pos hprofile, ofColumns?_eq_ofPattern? hprofile,
      ofColumns?_eq_truncated hprofile⟩, fun cs t hread => ?_⟩
  · rw [ofWireText?_wireText, hyear, if_pos rfl]
  · rw [ofWireText?_wireText, hyear, if_neg (by decide)]
  · have hcut := congrArg nanos (of_ofWireText? hread).1
    simp only [truncateToMillis] at hcut
    omega

/-- The last nanosecond of the leap second at the end of June 2015. -/
def sampleLeap : Instant := ⟨1435708799, 1999999999, .inr (by decide)⟩

def sampleAfterYears : Instant := ⟨253402344000, 0, .inl (by decide)⟩

/-- A text in the shape of the profile whose first digit is Arabic. -/
def sampleForeign : List Char := "\u0662024-02-29T12:00:00.000Z".toList

theorem wire_text_codec_sample :
    ofWireText? sampleLeap.wireText = some ⟨1435708799, 1999000000, .inr (by decide)⟩ ∧
      ofWireText? sampleAfterYears.wireText = none ∧ hasProfile sampleForeign = true ∧
      (ofRfc3339? sampleForeign).map truncateToMillis = none := by
  obtain ⟨hwritten, hrefused, hread, -⟩ := wire_text_codec
  have htrim : trimBlank sampleForeign = sampleForeign := by decide
  have hprofile : hasProfile sampleForeign = true := by decide
  have hcolumns : ofColumns? sampleForeign = none := by decide
  have halike := hread sampleForeign
  rw [htrim] at halike
  exact ⟨(hwritten sampleLeap (by decide)).2, hrefused sampleAfterYears (by decide), hprofile,
    (halike hprofile).2.2.symm.trans hcolumns⟩

end DecisionPoint.Time.Instant
