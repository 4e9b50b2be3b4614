import DecisionPoint.Json.Record

/-!
The two decisions and their written form.
-/

namespace DecisionPoint

/-- What becomes of a request. Where nothing else is said it is allowed. -/
inductive Decision where
  | allow
  | deny
deriving DecidableEq, Repr, Inhabited

namespace Decision

def word : Decision → String
  | .allow => "ALLOW"
  | .deny => "DENY"

def ofWord? : String → Option Decision
  | "ALLOW" => some .allow
  | "DENY" => some .deny
  | _ => none

/-- The word of a decision inside a sentence. -/
def phrase : Decision → String
  | .allow => "allow"
  | .deny => "deny"

def isAllow (d : Decision) : Bool :=
  d == .allow

def toJson (d : Decision) : Json.Value :=
  .text d.word

def ofJson? (v : Json.Value) : Option Decision :=
  v.asWord?.bind ofWord?

end Decision

end DecisionPoint
