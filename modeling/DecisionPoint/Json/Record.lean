import DecisionPoint.Json.Reader
import DecisionPoint.Json.Printer

/-!
Decoding records. A record is written as an object, or as an array of its
fields in their declared order with the last ones left out. Members that no
field claims are skipped without a look at what they hold, and a field that is
given twice makes the record undecodable, under whichever of its names.
-/

namespace DecisionPoint.Json

/-- A field of a record: its name and the further names it may be read by. -/
structure Field where
  name : String
  aliases : List String

/-- The fields of a record, in the order of its array form. -/
abbrev Schema := List Field

def Schema.ofNames (names : List String) : Schema :=
  names.map fun name => ⟨name, []⟩

def Schema.field? (schema : Schema) (member : String) : Option String :=
  (schema.find? fun f => f.name == member || f.aliases.contains member).map (·.name)

/-- The values given for the fields of a record, by field name. -/
abbrev Slots := List (String × Value)

namespace Slots

def required (slots : Slots) (name : String) (decode : Value → Option α) : Option α :=
  (slots.lookup name).bind decode

/-- The value of a field that takes `default` where it is not given. -/
def defaulted (slots : Slots) (name : String) (default : α) (decode : Value → Option α) :
    Option α :=
  match slots.lookup name with
  | none => some default
  | some v => decode v

/-- Sorts the members of an object into the fields of a schema. -/
def ofMembers? (schema : Schema) : List (Literal × Value) → Option Slots
  | [] => some []
  | (name, v) :: rest => do
    let name ← name
    let slots ← ofMembers? schema rest
    match schema.field? name with
    | none => return slots
    | some field =>
      if (slots.lookup field).isSome then none else return (field, v) :: slots

end Slots

namespace Value

/-- The values of a record's fields in either of its written forms. -/
def slots? (schema : Schema) : Value → Option Slots
  | .object members => Slots.ofMembers? schema members
  | .array items =>
    if items.length ≤ schema.length then some ((schema.map (·.name)).zip items) else none
  | _ => none

def asText? : Value → Option String
  | .string s => s
  | _ => none

def asBool? : Value → Option Bool
  | .bool b => some b
  | _ => none

def asInt? : Value → Option Int
  | .number n => n.integer?
  | _ => none

def asInt32? (v : Value) : Option Int32 := do
  let i ← v.asInt?
  if Int32.minValue.toInt ≤ i ∧ i ≤ Int32.maxValue.toInt then some (Int32.ofInt i) else none

def asUInt32? (v : Value) : Option UInt32 := do
  let i ← v.asInt?
  if 0 ≤ i ∧ i < UInt32.size then some (UInt32.ofNat i.toNat) else none

def asList? (decode : Value → Option α) : Value → Option (List α)
  | .array items => items.mapM decode
  | _ => none

def asOption? (decode : Value → Option α) : Value → Option (Option α)
  | .null => some none
  | v => (decode v).map some

/-- The word of a choice: a string, or an object that names the word and gives
it null. -/
def asWord? : Value → Option String
  | .string s => s
  | .object [(name, .null)] => name
  | _ => none

end Value

end DecisionPoint.Json
