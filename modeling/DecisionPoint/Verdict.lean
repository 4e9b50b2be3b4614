import DecisionPoint.Request
import DecisionPoint.Policy.Decision

/-!
Verdicts: the answer to a request, and the trace of the policies that were
visited on the way to it. Verdicts are what the decision cache holds, so their
text is read back as well as written.
-/

namespace DecisionPoint

open Time (Instant)

/-- The visit of one policy: whether it decided the request, and how. -/
structure TraceEntry where
  policyKey : String
  priority : Int32
  applied : Bool
  decision : Option Decision
  ruleId : Option String
deriving DecidableEq, Repr

/-- The answer to a request. The policy is missing where none applied, and the
trace where nobody asked for it. -/
structure Verdict where
  decision : Decision
  reason : String
  policyKey : Option String
  policyName : Option String
  trace : Option (List TraceEntry)
  expirationMinutes : Option UInt32
  timestamp : Instant
deriving DecidableEq, Repr

namespace TraceEntry

def schema : Json.Schema :=
  .ofNames ["policyKey", "priority", "applied", "decision", "matchedRuleId"]

def toJson (e : TraceEntry) : Json.Value :=
  .record [
    ("policyKey", some (.text e.policyKey)),
    ("priority", some (.int e.priority.toInt)),
    ("applied", some (.bool e.applied)),
    ("decision", e.decision.map Decision.toJson),
    ("matchedRuleId", e.ruleId.map .text)]

def ofJson? (v : Json.Value) : Option TraceEntry := do
  let slots ← v.slots? schema
  return {
    policyKey := ← slots.required "policyKey" (·.asText?)
    priority := ← slots.required "priority" (·.asInt32?)
    applied := ← slots.required "applied" (·.asBool?)
    decision := ← slots.defaulted "decision" none (·.asOption? Decision.ofJson?)
    ruleId := ← slots.defaulted "matchedRuleId" none (·.asOption? (·.asText?)) }

end TraceEntry

namespace Verdict

/-- A verdict without a policy, made at an instant that is cut to milliseconds. -/
def make (decision : Decision) (reason : String) (now : Instant) : Verdict :=
  ⟨decision, reason, none, none, none, none, now.truncateToMillis⟩

def isAllowed (v : Verdict) : Bool :=
  v.decision.isAllow

def schema : Json.Schema :=
  .ofNames ["decision", "reason", "policyKey", "policyName", "evaluationDetails",
    "expirationMinutes", "timestamp"]

def toJson (v : Verdict) : Json.Value :=
  .record [
    ("decision", some v.decision.toJson),
    ("reason", some (.text v.reason)),
    ("policyKey", some (.textOrNull v.policyKey)),
    ("policyName", some (.textOrNull v.policyName)),
    ("evaluationDetails", v.trace.map fun entries => .array (entries.map TraceEntry.toJson)),
    ("expirationMinutes", some (v.expirationMinutes.elim .null fun n => .int n.toNat)),
    ("timestamp", some (Request.timestampToJson v.timestamp))]

/-- Reads an instant in any wire form. -/
def timestampOfJson? (v : Json.Value) : Option Instant :=
  v.asText?.bind fun s => Instant.ofWireText? s.toList

def ofJson? (v : Json.Value) : Option Verdict := do
  let slots ← v.slots? schema
  return {
    decision := ← slots.required "decision" Decision.ofJson?
    reason := ← slots.required "reason" (·.asText?)
    policyKey := ← slots.defaulted "policyKey" none (·.asOption? (·.asText?))
    policyName := ← slots.defaulted "policyName" none (·.asOption? (·.asText?))
    trace := ← slots.defaulted "evaluationDetails" none
      (·.asOption? (·.asList? TraceEntry.ofJson?))
    expirationMinutes := ← slots.defaulted "expirationMinutes" none (·.asOption? (·.asUInt32?))
    timestamp := ← slots.required "timestamp" timestampOfJson? }

def ofText? (s : String) : Option Verdict :=
  (Json.Value.ofText? s).bind ofJson?

def toText (v : Verdict) : String :=
  v.toJson.toText

end Verdict

end DecisionPoint
