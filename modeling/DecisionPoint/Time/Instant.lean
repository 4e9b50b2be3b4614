import DecisionPoint.Time.Calendar

/-!
Instants on the UTC time scale, with leap seconds, and the spans between them.
A leap second has no number of its own: it is the last second of a minute run
on to nanoseconds of a thousand million and more. Spans are numbers of
nanoseconds.

Instants are ordered by second and nanosecond. Their difference is taken day
by day and time of day by time of day, which counts a leap second only inside
its own day, so order and difference part at the end of such a day.
-/

namespace DecisionPoint.Time

def nanosPerSecond : Nat := 1000000000

def ofMillis (n : Nat) : Nat := n * 1000000

def ofMinutes (n : Nat) : Nat := n * 60 * nanosPerSecond

def secondsPerDay : Nat := 86400

/-- An instant: seconds since the start of 1970 and nanoseconds on top. -/
structure Instant where
  seconds : Int
  nanos : Nat
  leap_rule : nanos < 1000000000 ∨ (nanos < 2000000000 ∧ seconds % 60 = 59)
deriving DecidableEq, Repr

namespace Instant

def ofParts? (seconds : Int) (nanos : Nat) : Option Instant :=
  if h : nanos < 1000000000 ∨ (nanos < 2000000000 ∧ seconds % 60 = 59) then
    some ⟨seconds, nanos, h⟩
  else
    none

def epoch : Instant := ⟨0, 0, .inl (by decide)⟩

instance : Inhabited Instant := ⟨epoch⟩

instance : LT Instant where
  lt a b := a.seconds < b.seconds ∨ (a.seconds = b.seconds ∧ a.nanos < b.nanos)

instance (a b : Instant) : Decidable (a < b) :=
  inferInstanceAs (Decidable (_ ∨ _))

instance : LE Instant where
  le a b := ¬ b < a

instance (a b : Instant) : Decidable (a ≤ b) :=
  inferInstanceAs (Decidable (¬ _))

def day (t : Instant) : Int :=
  t.seconds / secondsPerDay

def secondOfDay (t : Instant) : Nat :=
  (t.seconds % secondsPerDay).toNat

def isLeap (t : Instant) : Bool :=
  nanosPerSecond ≤ t.nanos

/-- The span from `earlier` to `t`. Where one of the two lies in a leap second
and the other later in the day, the leap second is counted. -/
def since (t earlier : Instant) : Int :=
  let apart : Int := t.secondOfDay - earlier.secondOfDay
  let counted :=
    if earlier.secondOfDay < t.secondOfDay && earlier.isLeap then apart + 1
    else if t.secondOfDay < earlier.secondOfDay && t.isLeap then apart - 1
    else apart
  ((t.day - earlier.day) * secondsPerDay + counted) * nanosPerSecond + (t.nanos - earlier.nanos)

/-- The whole minutes of a span, rounded toward zero. -/
def wholeMinutes (span : Int) : Int :=
  span.tdiv (60 * nanosPerSecond)

/-- The instant a span after `t`. A span that ends inside the leap second it
starts in stays there; any other leaves it at once. -/
def advance (t : Instant) (span : Nat) : Instant :=
  if h : nanosPerSecond ≤ t.nanos ∧ t.nanos + span < 2000000000 then
    ⟨t.seconds, t.nanos + span, by have := t.leap_rule; simp only [nanosPerSecond] at h; omega⟩
  else
    let sum := t.nanos % nanosPerSecond + span
    ⟨t.seconds + (sum / nanosPerSecond : Nat), sum % nanosPerSecond,
      .inl (Nat.mod_lt _ (by decide))⟩

/-- The last whole millisecond up to `t`. -/
def truncateToMillis (t : Instant) : Instant :=
  ⟨t.seconds, t.nanos / 1000000 * 1000000, by have := t.leap_rule; omega⟩

def earliest? : List Instant → Option Instant
  | [] => none
  | t :: ts =>
    match earliest? ts with
    | none => some t
    | some u => if u < t then some u else some t

end Instant

end DecisionPoint.Time
