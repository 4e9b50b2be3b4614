import DecisionPoint.Json.Binary64

/-!
Number literals and what they stand for. A literal without fraction and
exponent is an integer while it fits 64 bits; every other literal is a real,
kept as the floating point magnitude that its digits are rounded to.
-/

namespace DecisionPoint.Json

/-- A number literal. `fraction` holds the digits after the point and is
empty where no point is written. -/
structure Number where
  negative : Bool
  whole : Nat
  fraction : List Char
  exponent : Option Int
deriving DecidableEq, Repr

/-- What a number literal stands for. -/
inductive Quantity where
  | integer (i : Int)
  | real (negative : Bool) (magnitude : Binary64)
deriving DecidableEq, Repr

namespace Number

def ofInt (i : Int) : Number :=
  ⟨i < 0, i.natAbs, [], none⟩

/-- The greatest integer that significant digits are collected into. -/
def greatestSignificand : Nat := UInt64.size - 1

/-- Collects digits into `significand` until one no longer fits; that digit
and all after it are left. -/
def collect (significand : Nat) : List Char → Nat × List Char
  | [] => (significand, [])
  | d :: ds =>
    let next := Text.digitsValue [d] + 10 * significand
    if next ≤ greatestSignificand then collect next ds else (significand, d :: ds)

/-- The magnitude of a literal that is not an integer, or nothing where it is
out of range. The digits that a 64-bit significand cannot hold are dropped,
those before the point being counted into the power of ten. -/
def magnitude? (n : Number) : Option Binary64 := do
  let (significand, dropped) := collect 0 (Text.digits n.whole)
  let (significand, unread) := collect significand n.fraction
  let places : Int := n.fraction.length - unread.length
  let significand ← Binary64.ofRatio significand 1
  significand.scaleByTen (dropped.length - places + n.exponent.getD 0)

/-- The integer of a literal without fraction and exponent, if it fits 64
bits. A negative zero is no integer. -/
def integer? (n : Number) : Option Int :=
  if n.fraction ≠ [] ∨ n.exponent ≠ none then
    none
  else if n.negative then
    if 0 < n.whole ∧ n.whole ≤ Nat.pow 2 63 then some (-n.whole) else none
  else if n.whole < UInt64.size then
    some n.whole
  else
    none

/-- What the literal stands for, or nothing where it is out of range. -/
def quantity? (n : Number) : Option Quantity :=
  match n.integer? with
  | some i => some (.integer i)
  | none => n.magnitude?.map (.real n.negative ·)

def render (n : Number) : List Char :=
  (if n.negative then ['-'] else []) ++ Text.digits n.whole ++
    (if n.fraction = [] then [] else '.' :: n.fraction) ++
    match n.exponent with
    | none => []
    | some e => 'e' :: Text.integer e

end Number

namespace Quantity

/-- The text of a quantity: an integer in decimal, a real in the shortest
digits that read back. -/
def text : Quantity → List Char
  | .integer i => Text.integer i
  | .real negative magnitude => (if negative then ['-'] else []) ++ magnitude.text

end Quantity

end DecisionPoint.Json
