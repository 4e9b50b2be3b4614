import DecisionPoint.Policy.Decision

/-!
Rules: what a policy decides once its conditions match. The enabled rule of
highest priority decides, the earlier one on a tie; without an enabled rule
the default decision of the policy stands.
-/

namespace DecisionPoint

/-- A rule. Its condition text is kept for its authors and never looked at. -/
structure Rule where
  id : String
  name : String
  condition : Option String
  decision : Decision
  priority : Int32
  enabled : Bool
deriving DecidableEq, Repr

/-- How rules are combined into one decision. -/
inductive RuleMode where
  | first
deriving DecidableEq, Repr

structure Rules where
  default : Decision
  mode : RuleMode
  rules : List Rule
deriving DecidableEq, Repr

/-- What rules come to: a decision, and the id of the rule that made it. -/
structure RuleOutcome where
  decision : Decision
  ruleId : Option String
deriving DecidableEq, Repr

namespace Rule

/-- The rule that a document with no members describes. -/
def blank : Rule :=
  ⟨"", "", none, .allow, 0, true⟩

def schema : Json.Schema :=
  .ofNames ["id", "name", "condition", "action", "priority", "enabled"]

def toJson (r : Rule) : Json.Value :=
  .record [
    ("id", some (.text r.id)),
    ("name", some (.text r.name)),
    ("condition", r.condition.map .text),
    ("action", some r.decision.toJson),
    ("priority", some (.int r.priority.toInt)),
    ("enabled", some (.bool r.enabled))]

def ofJson? (v : Json.Value) : Option Rule := do
  let slots ← v.slots? schema
  return {
    id := ← slots.defaulted "id" blank.id (·.asText?)
    name := ← slots.defaulted "name" blank.name (·.asText?)
    condition := ← slots.defaulted "condition" blank.condition (·.asOption? (·.asText?))
    decision := ← slots.defaulted "action" blank.decision Decision.ofJson?
    priority := ← slots.defaulted "priority" blank.priority (·.asInt32?)
    enabled := ← slots.defaulted "enabled" blank.enabled (·.asBool?) }

end Rule

namespace RuleMode

def word : RuleMode → String
  | .first => "FIRST"

def ofJson? (v : Json.Value) : Option RuleMode :=
  match v.asWord? with
  | some "FIRST" => some .first
  | _ => none

end RuleMode

namespace Rules

/-- The rules of a policy that has no rules document. -/
def blank : Rules :=
  ⟨.allow, .first, []⟩

instance : Inhabited Rules := ⟨blank⟩

def schema : Json.Schema :=
  .ofNames ["defaultAction", "evaluationMode", "rules"]

def toJson (r : Rules) : Json.Value :=
  .record [
    ("defaultAction", some r.default.toJson),
    ("evaluationMode", some (.text r.mode.word)),
    ("rules", some (.array (r.rules.map Rule.toJson)))]

def ofJson? (v : Json.Value) : Option Rules := do
  let slots ← v.slots? schema
  return {
    default := ← slots.defaulted "defaultAction" blank.default Decision.ofJson?
    mode := ← slots.defaulted "evaluationMode" blank.mode RuleMode.ofJson?
    rules := ← slots.defaulted "rules" blank.rules (·.asList? Rule.ofJson?) }

/-- The rule that decides between `best`, found so far, and those to come: a
later one needs a higher priority. -/
def winnerFrom (best : Option Rule) : List Rule → Option Rule
  | [] => best
  | r :: rs =>
    let better := r.enabled && best.all fun b => b.priority < r.priority
    winnerFrom (if better then some r else best) rs

def winner? (r : Rules) : Option Rule :=
  winnerFrom none r.rules

def decide (r : Rules) : RuleOutcome :=
  match r.winner? with
  | some rule => ⟨rule.decision, some rule.id⟩
  | none => ⟨r.default, none⟩

end Rules

end DecisionPoint
