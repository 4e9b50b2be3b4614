import DecisionPoint.Policy.Decision
import DecisionPoint.Time.Timestamp

/-!
Stored policies. A policy belongs to one tenant or to all, and may be bounded
in time. Its rules, conditions and actions are texts that are read only when
a request comes to the policy.
-/

namespace DecisionPoint

open Time (Instant)

inductive PolicyStatus where
  | active
  | inactive
deriving DecidableEq, Repr

/-- A stored policy. It takes effect at `effectiveFrom` and ends at
`effectiveUntil`, where these are given. -/
structure Policy where
  key : String
  name : String
  enabled : Bool
  status : PolicyStatus
  priority : Int32
  tenant : Option String
  rules : Option String
  conditions : Option String
  actions : Option String
  effectiveFrom : Option Instant
  effectiveUntil : Option Instant
deriving DecidableEq, Repr

namespace PolicyStatus

def word : PolicyStatus → String
  | .active => "ACTIVE"
  | .inactive => "INACTIVE"

def ofWord? : String → Option PolicyStatus
  | "ACTIVE" => some .active
  | "INACTIVE" => some .inactive
  | _ => none

def ofJson? (v : Json.Value) : Option PolicyStatus :=
  v.asWord?.bind ofWord?

end PolicyStatus

namespace Policy

/-- Whether a policy may decide anything at all. -/
def isCandidate (p : Policy) : Bool :=
  p.enabled && p.status == .active

def isGlobal (p : Policy) : Bool :=
  p.tenant.isNone

def isEffectiveAt (p : Policy) (now : Instant) : Bool :=
  (p.effectiveFrom.all fun t => t ≤ now) && (p.effectiveUntil.all fun t => now < t)

def bounds (p : Policy) : List Instant :=
  p.effectiveFrom.toList ++ p.effectiveUntil.toList

def schema : Json.Schema :=
  .ofNames ["policyKey", "name", "enabled", "status", "priority", "tenantKey", "rules",
    "conditions", "actions", "effectiveFrom", "effectiveUntil"]

def boundToJson (t : Instant) : Json.Value :=
  .text (String.ofList t.boundText)

def boundOfJson? (v : Json.Value) : Option Instant :=
  v.asText?.bind fun s => Instant.ofRelaxedText? s.toList

def toJson (p : Policy) : Json.Value :=
  .record [
    ("policyKey", some (.text p.key)),
    ("name", some (.text p.name)),
    ("enabled", some (.bool p.enabled)),
    ("status", some (.text p.status.word)),
    ("priority", some (.int p.priority.toInt)),
    ("tenantKey", p.tenant.map .text),
    ("rules", some (.textOrNull p.rules)),
    ("conditions", some (.textOrNull p.conditions)),
    ("actions", some (.textOrNull p.actions)),
    ("effectiveFrom", p.effectiveFrom.map boundToJson),
    ("effectiveUntil", p.effectiveUntil.map boundToJson)]

def ofJson? (v : Json.Value) : Option Policy := do
  let slots ← v.slots? schema
  let text? (name : String) := slots.defaulted name none (·.asOption? (·.asText?))
  let bound? (name : String) := slots.defaulted name none (·.asOption? boundOfJson?)
  return {
    key := ← slots.required "policyKey" (·.asText?)
    name := ← slots.required "name" (·.asText?)
    enabled := ← slots.required "enabled" (·.asBool?)
    status := ← slots.required "status" PolicyStatus.ofJson?
    priority := ← slots.required "priority" (·.asInt32?)
    tenant := ← text? "tenantKey"
    rules := ← text? "rules"
    conditions := ← text? "conditions"
    actions := ← text? "actions"
    effectiveFrom := ← bound? "effectiveFrom"
    effectiveUntil := ← bound? "effectiveUntil" }

def ofText? (s : String) : Option Policy :=
  (Json.Value.ofText? s).bind ofJson?

def toText (p : Policy) : String :=
  p.toJson.toText

def listOfText? (s : String) : Option (List Policy) :=
  (Json.Value.ofText? s).bind (·.asList? ofJson?)

def listToText (policies : List Policy) : String :=
  (Json.Value.array (policies.map toJson)).toText

end Policy

end DecisionPoint
