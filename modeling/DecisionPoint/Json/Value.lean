import DecisionPoint.Json.Number

/-!
JSON as a syntax tree. The tree keeps what a text spells and judges as little
as possible: literals that spell no text and numbers out of range have a place
in it, so that members nobody asks for may hold them. `Value.isStrict` is the
judgement over a whole tree.
-/

namespace DecisionPoint.Json

/-- A string literal: the text it spells, or nothing where an escape leaves
half of a surrogate pair alone. -/
abbrev Literal := Option String

/-- A syntax tree. Members keep the order and the repetitions of the text. -/
inductive Value where
  | null
  | bool (b : Bool)
  | number (n : Number)
  | string (s : Literal)
  | array (items : List Value)
  | object (members : List (Literal × Value))
deriving Repr

namespace Value

def text (s : String) : Value :=
  .string (some s)

/-- The string value of a text, or null where there is none. -/
def textOrNull : Option String → Value
  | some s => text s
  | none => .null

def int (i : Int) : Value :=
  .number (.ofInt i)

/-- The object of the members that are present, in their order. -/
def record (members : List (String × Option Value)) : Value :=
  .object <| members.filterMap fun (name, value) => value.map fun v => (some name, v)

/-- The deepest nesting of arrays and objects that a strict text may have. -/
def greatestDepth : Nat := 127

mutual

/-- Whether the tree nests at most `room` deep, all its literals spell a text
and all its numbers are in range. -/
def fits (room : Nat) : Value → Bool
  | .null => true
  | .bool _ => true
  | .number n => n.quantity?.isSome
  | .string s => s.isSome
  | .array items => room != 0 && itemsFit (room - 1) items
  | .object members => room != 0 && membersFit (room - 1) members

def itemsFit (room : Nat) : List Value → Bool
  | [] => true
  | v :: vs => v.fits room && itemsFit room vs

def membersFit (room : Nat) : List (Literal × Value) → Bool
  | [] => true
  | (name, v) :: rest => name.isSome && v.fits room && membersFit room rest

end

/-- Whether every part of the tree is in order, also the parts that a reader
of some record would skip. -/
def isStrict (v : Value) : Bool :=
  v.fits greatestDepth

end Value

end DecisionPoint.Json
