import DecisionPoint.Time.Instant
import DecisionPoint.Text.Blank
import DecisionPoint.Text.Digit

/-!
Times of day, their texts, and the local time of an instant under an offset
from UTC given in minutes.
-/

namespace DecisionPoint.Time

/-- A time of day: seconds since midnight and nanoseconds on top, which run on
to two thousand million in a leap second. -/
structure TimeOfDay where
  second : Nat
  nanos : Nat
  second_lt : second < 86400
  nanos_lt : nanos < 2000000000
deriving DecidableEq, Repr

namespace TimeOfDay

def ofParts? (second nanos : Nat) : Option TimeOfDay :=
  if h : second < 86400 ∧ nanos < 2000000000 then some ⟨second, nanos, h.1, h.2⟩ else none

/-- The time of an hour, a minute and a second, the second 60 being a leap
second of any minute. -/
def ofClock? (hour minute second : Nat) : Option TimeOfDay :=
  if hour < 24 ∧ minute < 60 then
    if second = 60 then ofParts? (hour * 3600 + minute * 60 + 59) 1000000000
    else if second < 60 then ofParts? (hour * 3600 + minute * 60 + second) 0
    else none
  else
    none

instance : LT TimeOfDay where
  lt a b := a.second < b.second ∨ (a.second = b.second ∧ a.nanos < b.nanos)

instance (a b : TimeOfDay) : Decidable (a < b) :=
  inferInstanceAs (Decidable (_ ∨ _))

instance : LE TimeOfDay where
  le a b := ¬ b < a

instance (a b : TimeOfDay) : Decidable (a ≤ b) :=
  inferInstanceAs (Decidable (¬ _))

/-- The seconds that a number of minutes east of UTC comes to. An offset of a
day or more is no offset, and UTC stands in for it. -/
def offsetSeconds (minutes : Int32) : Int :=
  let seconds := (minutes * 60).toInt
  if -secondsPerDay < seconds ∧ seconds < secondsPerDay then seconds else 0

/-- The local time of an instant, `minutes` east of UTC. -/
def ofInstant (t : Instant) (minutes : Int32) : TimeOfDay where
  second := ((t.seconds + offsetSeconds minutes) % secondsPerDay).toNat
  nanos := t.nanos
  second_lt := by simp only [secondsPerDay]; omega
  nanos_lt := by have := t.leap_rule; omega

/-- The text of a time: hours and minutes, and the seconds where they are not
zero. -/
def text (t : TimeOfDay) : List Char :=
  let head := Text.padded 2 (t.second / 3600) ++ ':' :: Text.padded 2 (t.second / 60 % 60)
  if t.second % 60 = 0 then head
  else head ++ ':' :: Text.padded 2 (t.second % 60 + t.nanos / nanosPerSecond)

/-- Reads a number of one or two digits, blanks before it included. -/
def readField (cs : List Char) : Option (Nat × List Char) :=
  Text.readDigits 1 2 (Text.skipBlank cs)

/-- Reads a colon and the field behind it. -/
def readNextField : List Char → Option (Nat × List Char)
  | ':' :: rest => readField rest
  | _ => none

/-- Reads a time with hours and minutes, and with seconds or without. -/
def ofText? (cs : List Char) : Option TimeOfDay := do
  let (hour, rest) ← readField cs
  let (minute, rest) ← readNextField rest
  if rest = [] then
    ofClock? hour minute 0
  else
    let (second, rest) ← readNextField rest
    if rest = [] then ofClock? hour minute second else none

end TimeOfDay

end DecisionPoint.Time
