import DecisionPoint.Json.Value

/-!
String literals: escaping a text and reading a literal back. A literal is
first split into pieces, characters and 16-bit units, and the units are then
joined into characters. A literal whose units do not pair up still ends where
its closing quote stands, but spells no text.
-/

namespace DecisionPoint.Json

/-- One element of a literal: a character, or a unit given by its number. -/
inductive Piece where
  | char (c : Char)
  | unit (n : Nat)
deriving DecidableEq, Repr

namespace Literal

def hexValue? (c : Char) : Option Nat :=
  if c.isDigit then some (c.toNat - '0'.toNat)
  else if 'a' ≤ c ∧ c ≤ 'f' then some (c.toNat - 'a'.toNat + 10)
  else if 'A' ≤ c ∧ c ≤ 'F' then some (c.toNat - 'A'.toNat + 10)
  else none

/-- The number that four hexadecimal digits spell. -/
def unit? (a b c d : Char) : Option Nat := do
  return (((← hexValue? a) * 16 + (← hexValue? b)) * 16 + (← hexValue? c)) * 16 + (← hexValue? d)

/-- The character that a one-letter escape stands for. -/
def escaped? : Char → Option Char
  | '"' => some '"'
  | '\\' => some '\\'
  | '/' => some '/'
  | 'b' => some '\x08'
  | 'f' => some '\x0c'
  | 'n' => some '\n'
  | 'r' => some '\r'
  | 't' => some '\t'
  | _ => none

/-- Splits the text after an opening quote into the pieces up to the closing
quote and the rest behind it. Control characters must be escaped. -/
def split : List Char → Option (List Piece × List Char)
  | [] => none
  | '"' :: rest => some ([], rest)
  | '\\' :: 'u' :: a :: b :: c :: d :: rest => do
    let n ← unit? a b c d
    let (pieces, rest) ← split rest
    return (.unit n :: pieces, rest)
  | '\\' :: e :: rest => do
    let c ← escaped? e
    let (pieces, rest) ← split rest
    return (.char c :: pieces, rest)
  | c :: rest =>
    if c.toNat < 0x20 ∨ c = '\\' then
      none
    else do
      let (pieces, rest) ← split rest
      return (.char c :: pieces, rest)

/-- Whether a unit is the first half of a surrogate pair. -/
def isHigh (n : Nat) : Bool :=
  0xD800 ≤ n && n ≤ 0xDBFF

/-- Whether a unit is the second half of a surrogate pair. -/
def isLow (n : Nat) : Bool :=
  0xDC00 ≤ n && n ≤ 0xDFFF

/-- The text that pieces spell. Two neighbouring units that are the halves of
a pair spell one character; any other half spells none. -/
def join : List Piece → Option (List Char)
  | [] => some []
  | .char c :: pieces => (join pieces).map (c :: ·)
  | .unit n :: .unit m :: pieces =>
    if isHigh n && isLow m then
      (join pieces).map (Char.ofNat (0x10000 + (n - 0xD800) * 0x400 + (m - 0xDC00)) :: ·)
    else if isHigh n || isLow n then
      none
    else
      (join (.unit m :: pieces)).map (Char.ofNat n :: ·)
  | .unit n :: pieces =>
    if isHigh n || isLow n then none else (join pieces).map (Char.ofNat n :: ·)

/-- Reads a literal whose opening quote is already read. -/
def read (cs : List Char) : Option (Literal × List Char) :=
  (split cs).map fun (pieces, rest) => ((join pieces).map String.ofList, rest)

def hexDigit (n : Nat) : Char :=
  Nat.digitChar n

/-- How a character is written inside a literal. Only quotes, backslashes and
control characters are escaped. -/
def escape (c : Char) : List Char :=
  if c = '"' then ['\\', '"']
  else if c = '\\' then ['\\', '\\']
  else if c = '\x08' then ['\\', 'b']
  else if c = '\x0c' then ['\\', 'f']
  else if c = '\n' then ['\\', 'n']
  else if c = '\r' then ['\\', 'r']
  else if c = '\t' then ['\\', 't']
  else if c.toNat < 0x20 then
    ['\\', 'u', '0', '0', hexDigit (c.toNat / 16), hexDigit (c.toNat % 16)]
  else [c]

/-- The literal with its quotes. One that spells no text is written as half
of a surrogate pair. -/
def render : Literal → List Char
  | some s => '"' :: s.toList.flatMap escape ++ ['"']
  | none => "\"\\ud800\"".toList

end Literal

end DecisionPoint.Json
