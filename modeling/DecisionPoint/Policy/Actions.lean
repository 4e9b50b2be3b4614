import DecisionPoint.Policy.Decision

/-!
Actions: what is to be done when a policy has decided a request. An action is
pending until it was executed or failed, and then stays as it is.
-/

namespace DecisionPoint

/-- What an action does. Kinds that nobody knows are kept as unknown. -/
inductive ActionKind where
  | blockUser
  | sendAlert
  | logEvent
  | requireMfa
  | notifyAdmin
  | revokeSession
  | unknown
deriving DecidableEq, Repr

inductive ActionStatus where
  | pending
  | executed
  | failed
deriving DecidableEq, Repr

/-- An action of a policy, with an optional duration in minutes. -/
structure Action where
  kind : ActionKind
  description : String
  duration : Option UInt32
  priority : Int32
  status : ActionStatus
deriving DecidableEq, Repr

namespace ActionKind

def word : ActionKind → String
  | .blockUser => "BLOCK_USER"
  | .sendAlert => "SEND_ALERT"
  | .logEvent => "LOG_EVENT"
  | .requireMfa => "REQUIRE_MFA"
  | .notifyAdmin => "NOTIFY_ADMIN"
  | .revokeSession => "REVOKE_SESSION"
  | .unknown => "UNKNOWN"

def ofWord : String → ActionKind
  | "BLOCK_USER" => .blockUser
  | "SEND_ALERT" => .sendAlert
  | "LOG_EVENT" => .logEvent
  | "REQUIRE_MFA" => .requireMfa
  | "NOTIFY_ADMIN" => .notifyAdmin
  | "REVOKE_SESSION" => .revokeSession
  | _ => .unknown

def ofJson? (v : Json.Value) : Option ActionKind :=
  v.asWord?.map ofWord

end ActionKind

namespace ActionStatus

def word : ActionStatus → String
  | .pending => "PENDING"
  | .executed => "EXECUTED"
  | .failed => "FAILED"

def ofWord? : String → Option ActionStatus
  | "PENDING" => some .pending
  | "EXECUTED" => some .executed
  | "FAILED" => some .failed
  | _ => none

def ofJson? (v : Json.Value) : Option ActionStatus :=
  v.asWord?.bind ofWord?

/-- Whether nothing changes a status any more. -/
def isTerminal (s : ActionStatus) : Bool :=
  s != .pending

/-- Whether a status may become another: only a pending action ends, and it
ends once. -/
def mayBecome (s next : ActionStatus) : Bool :=
  s == .pending && next != .pending

/-- The status after an attempt to change it. -/
def transition (s next : ActionStatus) : ActionStatus :=
  if s.mayBecome next then next else s

end ActionStatus

namespace Action

def schema : Json.Schema :=
  .ofNames ["type", "description", "duration", "priority", "status"]

def toJson (a : Action) : Json.Value :=
  .record [
    ("type", some (.text a.kind.word)),
    ("description", some (.text a.description)),
    ("duration", a.duration.map fun n => .int n.toNat),
    ("priority", some (.int a.priority.toInt)),
    ("status", some (.text a.status.word))]

def ofJson? (v : Json.Value) : Option Action := do
  let slots ← v.slots? schema
  return {
    kind := ← slots.required "type" ActionKind.ofJson?
    description := ← slots.defaulted "description" "" (·.asText?)
    duration := ← slots.defaulted "duration" none (·.asOption? (·.asUInt32?))
    priority := ← slots.defaulted "priority" 0 (·.asInt32?)
    status := ← slots.defaulted "status" .pending ActionStatus.ofJson? }

def listToJson (actions : List Action) : Json.Value :=
  .array (actions.map toJson)

/-- Reads a list of actions, or one action by itself. -/
def listOfJson? (v : Json.Value) : Option (List Action) :=
  match v.asList? ofJson? with
  | some actions => some actions
  | none => (ofJson? v).map ([·])

end Action

end DecisionPoint
