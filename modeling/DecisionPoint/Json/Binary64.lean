import DecisionPoint.Text.Digit

/-!
Magnitudes of binary floating point numbers of 64 bits, in exact arithmetic.
A magnitude is a mantissa times a power of two; every operation computes the
exact quotient first and then rounds it once, to the nearest magnitude and on
a tie to the even mantissa. The shortest decimal text of a magnitude is found
the same way, by testing decimal grids of growing fineness.
-/

namespace DecisionPoint.Json

/-- The magnitude `mantissa * 2 ^ exponent`. The constructors of this module
keep the mantissa below `2 ^ 53` and the exponent at least `-1074`. -/
structure Binary64 where
  mantissa : Nat
  exponent : Int
deriving DecidableEq, Repr

namespace Binary64

/-- The quotient rounded to the nearest whole number, a half to the even one. -/
def roundQuotient (num den : Nat) : Nat :=
  let q := num / den
  let r := num % den
  if den < 2 * r ∨ (2 * r = den ∧ q % 2 = 1) then q + 1 else q

/-- The exponent of the highest power of two that is at most `num / den`. -/
def leadingExponent (num den : Nat) : Int :=
  let guess : Int := (num.log2 : Int) - den.log2
  if den * Nat.pow 2 guess.toNat ≤ num * Nat.pow 2 (-guess).toNat then guess else guess - 1

/-- The magnitude nearest to `num / den`, or nothing where that is beyond the
largest finite one. -/
def ofRatio (num den : Nat) : Option Binary64 :=
  if num = 0 then
    some ⟨0, -1074⟩
  else
    let exponent := max (leadingExponent num den - 52) (-1074)
    let mantissa :=
      roundQuotient (num * Nat.pow 2 (-exponent).toNat) (den * Nat.pow 2 exponent.toNat)
    let (mantissa, exponent) :=
      if mantissa = Nat.pow 2 53 then (Nat.pow 2 52, exponent + 1) else (mantissa, exponent)
    if 971 < exponent then none else some ⟨mantissa, exponent⟩

/-- The product, rounded; nothing where it overflows. -/
def mul (x y : Binary64) : Option Binary64 :=
  let exponent := x.exponent + y.exponent
  ofRatio (x.mantissa * y.mantissa * Nat.pow 2 exponent.toNat) (Nat.pow 2 (-exponent).toNat)

/-- The quotient, rounded; nothing where it overflows. -/
def div (x y : Binary64) : Option Binary64 :=
  let exponent := x.exponent - y.exponent
  ofRatio (x.mantissa * Nat.pow 2 exponent.toNat) (y.mantissa * Nat.pow 2 (-exponent).toNat)

/-- The greatest power of ten that a scaling step applies at once. -/
def greatestStep : Nat := 308

/-- Scales by a power of ten in rounded steps. A negative power beyond one
step is applied step by step until nothing is left of the number. -/
def scaleByTen (x : Binary64) (power : Int) : Option Binary64 :=
  if power.natAbs ≤ greatestStep then do
    let step ← ofRatio (Nat.pow 10 power.natAbs) 1
    if 0 ≤ power then x.mul step else x.div step
  else if x.mantissa = 0 then
    some x
  else if 0 ≤ power then
    none
  else do
    let step ← ofRatio (Nat.pow 10 greatestStep) 1
    let x ← x.div step
    x.scaleByTen (power + greatestStep)
termination_by (-power).toNat
decreasing_by simp only [greatestStep] at *; omega

/-- The exponent of the highest power of ten that is at most `num / den`. -/
def leadingPowerOfTen (num den : Nat) : Int :=
  let guess := leadingExponent num den * 30103 / 100000
  let reaches (p : Int) : Bool := den * Nat.pow 10 p.toNat ≤ num * Nat.pow 10 (-p).toNat
  if reaches (guess + 1) then guess + 1 else if reaches guess then guess else guess - 1

/-- The whole number of units of `10 ^ power` that reads back as `x` and lies
nearest to it, if there is one. The numbers that read back as `x` are those
between the midpoints to its neighbours, and the midpoints themselves where
the mantissa is even. -/
def onGrid? (x : Binary64) (power : Int) : Option Nat :=
  let scale := Nat.pow 2 (x.exponent - 2).toNat * Nat.pow 10 (-power).toNat
  let unit := Nat.pow 2 (2 - x.exponent).toNat * Nat.pow 10 power.toNat
  let below := if x.mantissa = Nat.pow 2 52 ∧ -1074 < x.exponent then 1 else 2
  let low := (4 * x.mantissa - below) * scale
  let here := 4 * x.mantissa * scale
  let high := (4 * x.mantissa + 2) * scale
  let inside (n : Nat) : Bool :=
    if x.mantissa % 2 = 0 then low ≤ n * unit && n * unit ≤ high
    else low < n * unit && n * unit < high
  let floor := here / unit
  let rest := here % unit
  let upperFirst := unit < 2 * rest ∨ (2 * rest = unit ∧ floor % 2 = 1)
  let (first, second) := if upperFirst then (floor + 1, floor) else (floor, floor + 1)
  if inside first then some first else if inside second then some second else none

/-- The fewest decimal digits that read back as `x`, as a whole number and the
power of ten that it counts. -/
def shortest (x : Binary64) : Nat × Int :=
  let top := leadingPowerOfTen (x.mantissa * Nat.pow 2 x.exponent.toNat)
    (Nat.pow 2 (-x.exponent).toNat)
  let tried := (List.range 17).filterMap fun (n : Nat) =>
    (x.onGrid? (top - n)).map fun units => (units, top - (n : Int))
  match tried with
  | found :: _ => found
  | [] => (x.mantissa, 0)

/-- Drops the zeros at the end of a digit run, counting them into the power. -/
def withoutTrailingZeros : Nat → Nat → Int → Nat × Int
  | 0, n, power => (n, power)
  | fuel + 1, n, power =>
    if n ≠ 0 ∧ n % 10 = 0 then withoutTrailingZeros fuel (n / 10) (power + 1) else (n, power)

/-- The shortest decimal text. Up to sixteen places before the point and four
zeros after it the digits stand in their places, with at least one digit on
each side of the point; beyond that an exponent is written with its sign. -/
def text (x : Binary64) : List Char :=
  if x.mantissa = 0 then
    "0.0".toList
  else
    let (n, power) := withoutTrailingZeros 17 x.shortest.1 x.shortest.2
    let ds := Text.digits n
    let places : Int := ds.length + power
    if 0 ≤ power ∧ places ≤ 16 then
      ds ++ List.replicate power.toNat '0' ++ ".0".toList
    else if 0 < places ∧ places ≤ 16 then
      ds.take places.toNat ++ '.' :: ds.drop places.toNat
    else if -5 < places ∧ places ≤ 0 then
      "0.".toList ++ List.replicate (-places).toNat '0' ++ ds
    else
      let sign := if 0 < places then '+' else '-'
      let exponent := 'e' :: sign :: Text.digits (places - 1).natAbs
      match ds with
      | [d] => d :: exponent
      | d :: ds => d :: '.' :: ds ++ exponent
      | [] => exponent

end Binary64

end DecisionPoint.Json
