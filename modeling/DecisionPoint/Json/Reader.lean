import DecisionPoint.Json.Literal

/-!
Reading JSON texts into syntax trees. The grammar is that of RFC 8259 to the
letter: four blanks, no comments, no trailing commas, nothing behind the
value. Every reader returns the rest of the text behind what it read. The
nesting is bounded by a fuel that any text of its length stays below.
-/

namespace DecisionPoint.Json

/-- The blanks that JSON allows between tokens. -/
def isSpace (c : Char) : Bool :=
  c == ' ' || c == '\n' || c == '\t' || c == '\r'

/-- The text from its first character that is no space. -/
def skipSpace (cs : List Char) : List Char :=
  cs.dropWhile isSpace

namespace Number

/-- Reads digits, at least one. -/
def readRun (cs : List Char) : Option (List Char × List Char) :=
  let ds := cs.takeWhile Char.isDigit
  if ds = [] then none else some (ds, cs.dropWhile Char.isDigit)

/-- Reads the digits before the point, which begin with a zero only where that
zero stands alone. -/
def readWhole (cs : List Char) : Option (Nat × List Char) := do
  let (ds, rest) ← readRun cs
  if ds.head? = some '0' ∧ ds.length ≠ 1 then none else some (Text.digitsValue ds, rest)

/-- Reads a point and the digits behind it, if a point stands there. -/
def readFraction : List Char → Option (List Char × List Char)
  | '.' :: rest => readRun rest
  | cs => some ([], cs)

def readSign : List Char → Bool × List Char
  | '-' :: rest => (true, rest)
  | '+' :: rest => (false, rest)
  | cs => (false, cs)

/-- Reads the digits of an exponent with their sign. -/
def readPower (cs : List Char) : Option (Option Int × List Char) := do
  let (negative, rest) := readSign cs
  let (ds, rest) ← readRun rest
  let n : Int := Text.digitsValue ds
  return (some (if negative then -n else n), rest)

def readExponent : List Char → Option (Option Int × List Char)
  | 'e' :: rest => readPower rest
  | 'E' :: rest => readPower rest
  | cs => some (none, cs)

/-- Reads a number literal without its sign. -/
def readUnsigned (negative : Bool) (cs : List Char) : Option (Number × List Char) := do
  let (whole, rest) ← readWhole cs
  let (fraction, rest) ← readFraction rest
  let (exponent, rest) ← readExponent rest
  return (⟨negative, whole, fraction, exponent⟩, rest)

def read : List Char → Option (Number × List Char)
  | '-' :: rest => readUnsigned true rest
  | cs => readUnsigned false cs

end Number

namespace Value

mutual

/-- Reads one value, spaces before it included. -/
def readValue : Nat → List Char → Option (Value × List Char)
  | 0, _ => none
  | fuel + 1, cs =>
    match skipSpace cs with
    | 'n' :: 'u' :: 'l' :: 'l' :: rest => some (.null, rest)
    | 't' :: 'r' :: 'u' :: 'e' :: rest => some (.bool true, rest)
    | 'f' :: 'a' :: 'l' :: 's' :: 'e' :: rest => some (.bool false, rest)
    | '"' :: rest => (Literal.read rest).map fun (s, rest) => (.string s, rest)
    | '[' :: rest =>
      match skipSpace rest with
      | ']' :: rest => some (.array [], rest)
      | rest => (readItems fuel rest).map fun (items, rest) => (.array items, rest)
    | '{' :: rest =>
      match skipSpace rest with
      | '}' :: rest => some (.object [], rest)
      | rest => (readMembers fuel rest).map fun (members, rest) => (.object members, rest)
    | cs => (Number.read cs).map fun (n, rest) => (.number n, rest)

/-- Reads the items of an array up to its closing bracket. -/
def readItems : Nat → List Char → Option (List Value × List Char)
  | 0, _ => none
  | fuel + 1, cs => do
    let (v, rest) ← readValue fuel cs
    match skipSpace rest with
    | ',' :: rest =>
      let (vs, rest) ← readItems fuel rest
      return (v :: vs, rest)
    | ']' :: rest => return ([v], rest)
    | _ => none

/-- Reads the members of an object up to its closing brace. -/
def readMembers : Nat → List Char → Option (List (Literal × Value) × List Char)
  | 0, _ => none
  | fuel + 1, cs =>
    match skipSpace cs with
    | '"' :: rest => do
      let (name, rest) ← Literal.read rest
      match skipSpace rest with
      | ':' :: rest =>
        let (v, rest) ← readValue fuel rest
        match skipSpace rest with
        | ',' :: rest =>
          let (members, rest) ← readMembers fuel rest
          return ((name, v) :: members, rest)
        | '}' :: rest => return ([(name, v)], rest)
        | _ => none
      | _ => none
    | _ => none

end

def read? (cs : List Char) : Option Value :=
  match readValue (2 * cs.length + 2) cs with
  | some (v, rest) => if skipSpace rest = [] then some v else none
  | none => none

def ofText? (s : String) : Option Value :=
  read? s.toList

/-- Reads a whole string as one value all of whose parts are in order. -/
def ofStrictText? (s : String) : Option Value :=
  (ofText? s).filter isStrict

end Value

end DecisionPoint.Json
