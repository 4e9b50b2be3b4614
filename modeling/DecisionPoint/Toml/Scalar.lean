import DecisionPoint.Json.Literal
import DecisionPoint.Json.Binary64
import DecisionPoint.Time.Calendar
import DecisionPoint.Toml.Value

/-!
The scalars of TOML: strings in their four spellings, integers in four bases,
reals, and dates and times. Readers return the rest of the text, and nothing
where the text is not what they read.
-/

namespace DecisionPoint.Toml

/-! ## Characters -/

def isSpace (c : Char) : Bool :=
  c == ' ' || c == '\t'

/-- The characters that may stand in comments and strings: no control
characters but the tabulator. -/
def isPlain (c : Char) : Bool :=
  c == '\t' || (0x20 ≤ c.toNat && c.toNat != 0x7F)

def skipSpace (cs : List Char) : List Char :=
  cs.dropWhile isSpace

def readNewline : List Char → Option (List Char)
  | '\n' :: rest => some rest
  | '\r' :: '\n' :: rest => some rest
  | _ => none

def skipLines : List Char → List Char
  | ' ' :: rest => skipLines rest
  | '\t' :: rest => skipLines rest
  | '\n' :: rest => skipLines rest
  | '\r' :: '\n' :: rest => skipLines rest
  | cs => cs

/-! ## Strings -/

def charOf? (n : Nat) : Option Char :=
  if n.isValidChar then some (Char.ofNat n) else none

/-- Reads the hexadecimal digits of an escape, `width` of them. -/
def readEscapeDigits (width : Nat) (cs : List Char) : Option (Char × List Char) := do
  let ds ← (cs.take width).mapM Json.Literal.hexValue?
  if ds.length = width then
    let c ← charOf? (ds.foldl (fun n d => n * 16 + d) 0)
    return (c, cs.drop width)
  else
    none

def readEscape : List Char → Option (Char × List Char)
  | 'b' :: rest => some ('\x08', rest)
  | 'f' :: rest => some ('\x0c', rest)
  | 'n' :: rest => some ('\n', rest)
  | 'r' :: rest => some ('\r', rest)
  | 't' :: rest => some ('\t', rest)
  | '\\' :: rest => some ('\\', rest)
  | '"' :: rest => some ('"', rest)
  | 'u' :: rest => readEscapeDigits 4 rest
  | 'U' :: rest => readEscapeDigits 8 rest
  | _ => none

/-- Reads a string with escapes on one line, its opening quote already read. -/
def readBasic : Nat → List Char → Option (List Char × List Char)
  | 0, _ => none
  | fuel + 1, cs =>
    match cs with
    | '"' :: rest => some ([], rest)
    | '\\' :: rest => do
      let (c, rest) ← readEscape rest
      let (s, rest) ← readBasic fuel rest
      return (c :: s, rest)
    | c :: rest =>
      if isPlain c then do
        let (s, rest) ← readBasic fuel rest
        return (c :: s, rest)
      else
        none
    | [] => none

/-- Reads a string without escapes on one line, its opening quote already read. -/
def readVerbatim (cs : List Char) : Option (List Char × List Char) :=
  let s := cs.takeWhile fun c => isPlain c && c != '\''
  match cs.drop s.length with
  | '\'' :: rest => some (s, rest)
  | _ => none

/-- Reads quotes inside a string of several lines. Up to two are part of the
string; three close it, behind up to two more that are part of it. Says how
many are part of the string and whether it is closed. -/
def readQuotes (quote : Char) (cs : List Char) : Option (Nat × Bool × List Char) :=
  let n := ((cs.take 6).takeWhile (· == quote)).length
  if n < 3 then some (n, false, cs.drop n)
  else if n < 6 then some (n - 3, true, cs.drop n)
  else none

/-- Reads a string of several lines, its opening quotes already read. With
`escapes` a backslash begins an escape, or takes away the end of its line and
the blanks and line ends after it. -/
def readLong (quote : Char) (escapes : Bool) : Nat → List Char → Option (List Char × List Char)
  | 0, _ => none
  | fuel + 1, cs =>
    match cs with
    | [] => none
    | c :: rest =>
      if c = quote then do
        let (n, closed, rest) ← readQuotes quote cs
        let quotes := List.replicate n quote
        if closed then
          return (quotes, rest)
        else
          let (s, rest) ← readLong quote escapes fuel rest
          return (quotes ++ s, rest)
      else if c = '\\' ∧ escapes then
        match readNewline (skipSpace rest) with
        | some rest => readLong quote escapes fuel (skipLines rest)
        | none => do
          let (e, rest) ← readEscape rest
          let (s, rest) ← readLong quote escapes fuel rest
          return (e :: s, rest)
      else
        match readNewline cs with
        | some rest => do
          let (s, rest) ← readLong quote escapes fuel rest
          return ('\n' :: s, rest)
        | none =>
          if isPlain c then do
            let (s, rest) ← readLong quote escapes fuel rest
            return (c :: s, rest)
          else
            none

/-- Reads a string of several lines without a line end right behind its
opening quotes. -/
def readLongBody (quote : Char) (escapes : Bool) (cs : List Char) :
    Option (List Char × List Char) :=
  readLong quote escapes (cs.length + 1) ((readNewline cs).getD cs)

def readLineString : List Char → Option (String × List Char)
  | '"' :: rest => (readBasic (rest.length + 1) rest).map fun (s, rest) => (String.ofList s, rest)
  | '\'' :: rest => (readVerbatim rest).map fun (s, rest) => (String.ofList s, rest)
  | _ => none

def readString : List Char → Option (String × List Char)
  | '"' :: '"' :: '"' :: rest =>
    (readLongBody '"' true rest).map fun (s, rest) => (String.ofList s, rest)
  | '\'' :: '\'' :: '\'' :: rest =>
    (readLongBody '\'' false rest).map fun (s, rest) => (String.ofList s, rest)
  | cs => readLineString cs

/-! ## Numbers -/

/-- Reads digits of a class with single underscores between them, from the
first digit on. The underscores are left out of the answer. -/
def readRun (isDigit : Char → Bool) : List Char → Option (List Char × List Char)
  | [] => none
  | d :: '_' :: rest =>
    if isDigit d then (readRun isDigit rest).map fun (ds, rest) => (d :: ds, rest) else none
  | d :: e :: rest =>
    if !isDigit d then none
    else if isDigit e then (readRun isDigit (e :: rest)).map fun (ds, rest) => (d :: ds, rest)
    else some ([d], e :: rest)
  | [d] => if isDigit d then some ([d], []) else none

def readSign : List Char → Bool × List Char
  | '-' :: rest => (true, rest)
  | '+' :: rest => (false, rest)
  | cs => (false, cs)

/-- Reads the digits before the point. A zero at their front stands alone. -/
def readWhole : List Char → Option (List Char × List Char)
  | '0' :: rest => some (['0'], rest)
  | cs => readRun Char.isDigit cs

def integerRange : Int × Int := (Int64.minValue.toInt, Int64.maxValue.toInt)

def integerNode? (i : Int) : Option Node :=
  if integerRange.1 ≤ i ∧ i ≤ integerRange.2 then some (.integer i) else none

/-- Reads the digits of an integer in a base other than ten. -/
def readBase (base : Nat) (isDigit : Char → Bool) (cs : List Char) :
    Option (Node × List Char) := do
  let (ds, rest) ← readRun isDigit cs
  let values ← ds.mapM Json.Literal.hexValue?
  let node ← integerNode? (values.foldl (fun n d => n * base + d) 0 : Nat)
  return (node, rest)

/-- Reads a fraction behind its point, or nothing where no point stands. -/
def readFraction : List Char → Option (List Char × List Char)
  | '.' :: rest => readRun Char.isDigit rest
  | cs => some ([], cs)

/-- Reads an exponent, or nothing where none stands. -/
def readExponent (cs : List Char) : Option (Option Int × List Char) :=
  let power (rest : List Char) : Option (Option Int × List Char) := do
    let (negative, rest) := readSign rest
    let (ds, rest) ← readRun Char.isDigit rest
    let n : Int := Text.digitsValue ds
    return (some (if negative then -n else n), rest)
  match cs with
  | 'e' :: rest => power rest
  | 'E' :: rest => power rest
  | cs => some (none, cs)

/-- Whether the number of some digits times a power of ten is beyond the
largest finite floating point number. -/
def overflows (ds : List Char) (power : Int) : Bool :=
  let ds := ds.dropWhile (· == '0')
  let places : Int := ds.length + power
  if ds = [] ∨ places ≤ 300 then false
  else if 310 < places then true
  else
    (Json.Binary64.ofRatio (Text.digitsValue ds * Nat.pow 10 power.toNat)
      (Nat.pow 10 (-power).toNat)).isNone

/-- Reads a decimal number behind its sign: a real where a fraction or an
exponent is written, else an integer. A positive real must be finite. -/
def readDecimal (negative : Bool) (cs : List Char) : Option (Node × List Char) := do
  let (whole, rest) ← readWhole cs
  let (fraction, rest) ← readFraction rest
  let (exponent, rest) ← readExponent rest
  if fraction = [] ∧ exponent = none then
    let n : Int := Text.digitsValue whole
    let node ← integerNode? (if negative then -n else n)
    return (node, rest)
  else if !negative && overflows (whole ++ fraction) (exponent.getD 0 - fraction.length) then
    none
  else
    return (.real, rest)

def readNumber (cs : List Char) : Option (Node × List Char) :=
  match cs with
  | '0' :: 'x' :: rest => readBase 16 (fun c => (Json.Literal.hexValue? c).isSome) rest
  | '0' :: 'o' :: rest => readBase 8 (fun c => '0' ≤ c && c ≤ '7') rest
  | '0' :: 'b' :: rest => readBase 2 (fun c => c == '0' || c == '1') rest
  | cs =>
    let (negative, rest) := readSign cs
    match rest with
    | 'i' :: 'n' :: 'f' :: rest => some (.real, rest)
    | 'n' :: 'a' :: 'n' :: rest => some (.real, rest)
    | rest => readDecimal negative rest

/-! ## Dates and times -/

/-- Reads two digits of a number of at most `greatest`. -/
def readPair (greatest : Nat) (cs : List Char) : Option (Nat × List Char) := do
  let (n, rest) ← Text.readDigits 2 2 cs
  if n ≤ greatest then some (n, rest) else none

def readColonPair (greatest : Nat) : List Char → Option (Nat × List Char)
  | ':' :: rest => readPair greatest rest
  | _ => none

def skipFraction : List Char → Option (List Char)
  | '.' :: rest =>
    let after := rest.dropWhile Char.isDigit
    if after.length = rest.length then none else some after
  | cs => some cs

def skipTime (cs : List Char) : Option (List Char) := do
  let (_, rest) ← readPair 23 cs
  let (_, rest) ← readColonPair 59 rest
  let (_, rest) ← readColonPair 60 rest
  skipFraction rest

def skipOffset : List Char → Option (List Char)
  | 'Z' :: rest => some rest
  | 'z' :: rest => some rest
  | '+' :: rest => hoursAndMinutes rest
  | '-' :: rest => hoursAndMinutes rest
  | cs => some cs
where
  hoursAndMinutes (cs : List Char) : Option (List Char) := do
    let (_, rest) ← readPair 23 cs
    let (_, rest) ← readColonPair 59 rest
    return rest

/-- Whether a text begins with `width` digits and the mark `c`. -/
def beginsWith (width : Nat) (c : Char) (cs : List Char) : Bool :=
  (Text.readDigits width width cs).any fun (_, rest) => rest.head? == some c

def skipDayTime : List Char → Option (List Char)
  | d :: rest =>
    if (d == 'T' || d == 't' || d == ' ') && beginsWith 2 ':' rest then do
      skipOffset (← skipTime rest)
    else
      some (d :: rest)
  | [] => some []

/-- Reads a date that must be one of the calendar, and a time behind it. -/
def readDate (cs : List Char) : Option (Node × List Char) := do
  let (year, rest) ← Text.readDigits 4 4 cs
  let (month, rest) ← Text.readDigits 2 2 (rest.drop 1)
  if rest.head? = some '-' then
    let (day, rest) ← Text.readDigits 2 2 (rest.drop 1)
    if (Time.Date.mk year month day).isValid then
      return (.date, ← skipDayTime rest)
    else
      none
  else
    none

def readNumeric (cs : List Char) : Option (Node × List Char) :=
  if beginsWith 4 '-' cs then readDate cs
  else if beginsWith 2 ':' cs then (skipTime cs).map (.date, ·)
  else readNumber cs

end DecisionPoint.Toml
