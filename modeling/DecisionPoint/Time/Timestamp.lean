import DecisionPoint.Time.Instant
import DecisionPoint.Text.Blank
import DecisionPoint.Text.Digit

/-!
The texts of instants. Three grammars read them.

* The wire profile has fixed columns, milliseconds and a final `Z`. It is the
  one form that requests and results are written in.
* RFC 3339 is what a wire timestamp outside the profile may be written in. It
  is cut to milliseconds.
* The relaxed form is what the bounds of a policy's validity may be written
  in: short fields, blanks between fields, years with a sign, and no cut.

Two forms are written: the profile, and for bounds the form with as many
groups of three fraction digits as the instant needs.
-/

namespace DecisionPoint.Time.Instant

/-! ## Putting an instant together -/

/-- The earliest and the latest year of an instant that a text may name. -/
def yearRange : Int × Int := (-262143, 262142)

/-- The instant of a date, a clock time with the second 60 as a leap second,
the nanoseconds of the second and the seconds that the clock is ahead of UTC.
Both the named date and the date in UTC must lie in the range of years. -/
def ofFields? (date : Date) (hour minute second nanos : Nat) (ahead : Int) : Option Instant :=
  if date.isValid ∧ hour < 24 ∧ minute < 60 ∧ second ≤ 60 ∧ nanos < nanosPerSecond then
    let clock := hour * 3600 + minute * 60 + min second 59
    let seconds := date.toDay * secondsPerDay + clock - ahead
    let inRange (year : Int) : Bool := yearRange.1 ≤ year && year ≤ yearRange.2
    if inRange date.year ∧ inRange (Date.ofDay (seconds / secondsPerDay)).year then
      ofParts? seconds (if second = 60 then nanosPerSecond + nanos else nanos)
    else
      none
  else
    none

/-! ## Shared readers -/

/-- Reads a fraction of a second, the point already read. Digits beyond the
ninth are dropped. -/
def readNanos (cs : List Char) : Option (Nat × List Char) :=
  let ds := (cs.take 9).takeWhile Char.isDigit
  if ds = [] then none
  else
    some (Text.digitsValue ds * Nat.pow 10 (9 - ds.length),
      (cs.drop ds.length).dropWhile Char.isDigit)

/-- Reads a point and the fraction behind it, if a point stands there. -/
def readFraction : List Char → Option (Nat × List Char)
  | '.' :: rest => readNanos rest
  | cs => some (0, cs)

/-- Reads the sign of an offset: a plus, a hyphen or the minus sign U+2212. -/
def readOffsetSign : List Char → Option (Bool × List Char)
  | '+' :: rest => some (false, rest)
  | '-' :: rest => some (true, rest)
  | '\u2212' :: rest => some (true, rest)
  | _ => none

/-- Reads an offset from UTC in seconds: a `Z`, or a sign, two digits of hours,
what `separator` skips and two digits of minutes. -/
def readOffset (separator : List Char → Option (List Char)) :
    List Char → Option (Int × List Char)
  | 'Z' :: rest => some (0, rest)
  | 'z' :: rest => some (0, rest)
  | cs => do
    let (negative, rest) ← readOffsetSign cs
    let (hours, rest) ← Text.readDigits 2 2 rest
    let rest ← separator rest
    let (minutes, rest) ← Text.readDigits 2 2 rest
    if 24 ≤ hours ∨ 60 ≤ minutes then
      none
    else
      let seconds : Int := hours * 3600 + minutes * 60
      return (if negative then -seconds else seconds, rest)

def readMark (c : Char) : List Char → Option (List Char)
  | d :: rest => if d = c then some rest else none
  | [] => none

/-- Reads what may stand between a date and a time. -/
def readDivider : List Char → Option (List Char)
  | 'T' :: rest => some rest
  | 't' :: rest => some rest
  | ' ' :: rest => some rest
  | _ => none

/-! ## The wire profile -/

/-- The columns of the profile, `0` standing for a digit. -/
def profile : List Char :=
  "0000-00-00T00:00:00.000Z".toList

/-- Whether a text has the shape of the profile, digits of any script being
taken for digits. -/
def hasProfile (cs : List Char) : Bool :=
  cs.length == profile.length &&
    (profile.zip cs).all fun (p, c) => if p = '0' then Text.isDecimalDigit c else c == p

/-- The number in the columns from `start` on, if all of them hold digits `0`
to `9`. -/
def column? (cs : List Char) (start width : Nat) : Option Nat :=
  let ds := (cs.drop start).take width
  if ds.all Char.isDigit then some (Text.digitsValue ds) else none

def ofColumns? (cs : List Char) : Option Instant := do
  let year ← column? cs 0 4
  let month ← column? cs 5 2
  let day ← column? cs 8 2
  let hour ← column? cs 11 2
  let minute ← column? cs 14 2
  let second ← column? cs 17 2
  let millis ← column? cs 20 3
  ofFields? ⟨year, month, day⟩ hour minute second (millis * 1000000) 0

/-- The text of a year: four digits, and with its sign outside 0 to 9999. -/
def yearText (year : Int) : List Char :=
  if 0 ≤ year ∧ year ≤ 9999 then Text.padded 4 year.natAbs
  else (if year < 0 then '-' else '+') :: Text.padded 4 year.natAbs

/-- The text of date and time of day down to the second, a leap second being
the second 60. -/
def textToSecond (t : Instant) : List Char :=
  let date := Date.ofDay t.day
  let second := t.secondOfDay
  yearText date.year ++ '-' :: Text.padded 2 date.month ++ '-' :: Text.padded 2 date.day ++
    'T' :: Text.padded 2 (second / 3600) ++ ':' :: Text.padded 2 (second / 60 % 60) ++
    ':' :: Text.padded 2 (second % 60 + t.nanos / nanosPerSecond)

def wireText (t : Instant) : List Char :=
  t.textToSecond ++ '.' :: Text.padded 3 (t.nanos % nanosPerSecond / 1000000) ++ ['Z']

/-! ## RFC 3339 -/

def ofRfc3339? (cs : List Char) : Option Instant := do
  let (year, rest) ← Text.readDigits 4 4 cs
  let rest ← readMark '-' rest
  let (month, rest) ← Text.readDigits 2 2 rest
  let rest ← readMark '-' rest
  let (day, rest) ← Text.readDigits 2 2 rest
  let rest ← readDivider rest
  let (hour, rest) ← Text.readDigits 2 2 rest
  let rest ← readMark ':' rest
  let (minute, rest) ← Text.readDigits 2 2 rest
  let rest ← readMark ':' rest
  let (second, rest) ← Text.readDigits 2 2 rest
  let (nanos, rest) ← readFraction rest
  let (ahead, rest) ← readOffset (readMark ':') rest
  if rest = [] then ofFields? ⟨year, month, day⟩ hour minute second nanos ahead else none

/-- Reads a wire timestamp: the profile by its columns, any other text by RFC
3339 and cut to milliseconds. Blanks around it do not count. -/
def ofWireText? (cs : List Char) : Option Instant :=
  let cs := Text.trimBlank cs
  if hasProfile cs then ofColumns? cs else (ofRfc3339? cs).map truncateToMillis

/-! ## The relaxed form -/

/-- Reads a year, blanks before it included: up to four digits, or a sign and
any number of them. -/
def readYear (cs : List Char) : Option (Int × List Char) :=
  match Text.skipBlank cs with
  | '-' :: rest => (Text.readDigits 1 rest.length rest).map fun (n, rest) => (-(n : Int), rest)
  | '+' :: rest => (Text.readDigits 1 rest.length rest).map fun (n, rest) => ((n : Int), rest)
  | rest => (Text.readDigits 1 4 rest).map fun (n, rest) => ((n : Int), rest)

def readShort (cs : List Char) : Option (Nat × List Char) :=
  Text.readDigits 1 2 (Text.skipBlank cs)

/-- Reads the character `c` behind blanks, and one or two digits behind it. -/
def readShortAfter (c : Char) (cs : List Char) : Option (Nat × List Char) := do
  readShort (← readMark c (Text.skipBlank cs))

def skipSeparators (cs : List Char) : Option (List Char) :=
  some (cs.dropWhile fun c => c == ':' || Text.isBlank c)

/-- Reads the offset of the relaxed form, which may also be the word UTC in
letters of either case. -/
def readZone (cs : List Char) : Option (Int × List Char) :=
  let named := (cs.take 3).map Char.toUpper == ['U', 'T', 'C']
  if named then some (0, cs.drop 3) else readOffset skipSeparators cs

def ofRelaxedText? (cs : List Char) : Option Instant := do
  let (year, rest) ← readYear cs
  let (month, rest) ← readShortAfter '-' rest
  let (day, rest) ← readShortAfter '-' rest
  let rest ← readDivider rest
  let (hour, rest) ← readShort rest
  let (minute, rest) ← readShortAfter ':' rest
  let (second, rest) ← readShortAfter ':' rest
  let (nanos, rest) ← readFraction rest
  let (ahead, rest) ← readZone (Text.skipBlank rest)
  if Text.skipBlank rest = [] then ofFields? ⟨year, month, day⟩ hour minute second nanos ahead
  else none

/-- The fraction of a second with its point, in as few groups of three digits
as show it. -/
def fractionText (nanos : Nat) : List Char :=
  if nanos = 0 then []
  else if nanos % 1000000 = 0 then '.' :: Text.padded 3 (nanos / 1000000)
  else if nanos % 1000 = 0 then '.' :: Text.padded 6 (nanos / 1000)
  else '.' :: Text.padded 9 nanos

def boundText (t : Instant) : List Char :=
  t.textToSecond ++ fractionText (t.nanos % nanosPerSecond) ++ ['Z']

end DecisionPoint.Time.Instant
