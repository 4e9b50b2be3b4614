import DecisionPoint.Policy.Decision
import DecisionPoint.Time.TimeOfDay

/-!
Conditions: when a policy applies. Four groups may restrict it, by local time
of day, by client address, by user and by resource. Inside a group what is
denied wins over what is allowed, and an empty list of allowed values allows
all. A group without entries restricts nothing and does not count.
-/

namespace DecisionPoint

open Time (TimeOfDay)

/-- A window of the day from `start` on and before `stop`. Where `stop` comes
before `start` the window goes on past midnight. -/
structure TimeRange where
  start : TimeOfDay
  stop : TimeOfDay
deriving DecidableEq, Repr

/-- Windows in which a policy applies and windows in which it does not. -/
structure TimeWindows where
  allowed : List TimeRange
  denied : List TimeRange
deriving DecidableEq, Repr

/-- Values that a policy applies to and values that it does not. -/
structure AccessList where
  allowed : List String
  denied : List String
deriving DecidableEq, Repr

/-- The restrictions by type and by id of the resource. -/
structure ResourceLists where
  types : AccessList
  ids : AccessList
deriving DecidableEq, Repr

/-- Whether all groups must pass or one is enough. -/
inductive ConditionMode where
  | all
  | any
deriving DecidableEq, Repr

structure Conditions where
  mode : ConditionMode
  time : Option TimeWindows
  ip : Option AccessList
  user : Option AccessList
  resource : Option ResourceLists
deriving DecidableEq, Repr

inductive ConditionGroup where
  | time (windows : TimeWindows)
  | ip (list : AccessList)
  | user (list : AccessList)
  | resource (lists : ResourceLists)
deriving DecidableEq, Repr

namespace TimeRange

def wraps (r : TimeRange) : Bool :=
  r.stop < r.start

def contains (r : TimeRange) (t : TimeOfDay) : Bool :=
  if r.wraps then r.start ≤ t || t < r.stop else r.start ≤ t && t < r.stop

def ofClock? (startHour startMinute stopHour stopMinute : Nat) : Option TimeRange := do
  return ⟨← TimeOfDay.ofClock? startHour startMinute 0, ← TimeOfDay.ofClock? stopHour stopMinute 0⟩

def schema : Json.Schema :=
  .ofNames ["start", "end"]

def timeToJson (t : TimeOfDay) : Json.Value :=
  .text (String.ofList t.text)

def timeOfJson? (v : Json.Value) : Option TimeOfDay :=
  v.asText?.bind fun s => TimeOfDay.ofText? s.toList

def toJson (r : TimeRange) : Json.Value :=
  .record [("start", some (timeToJson r.start)), ("end", some (timeToJson r.stop))]

def ofJson? (v : Json.Value) : Option TimeRange := do
  let slots ← v.slots? schema
  return ⟨← slots.required "start" timeOfJson?, ← slots.required "end" timeOfJson?⟩

end TimeRange

namespace TimeWindows

def blank : TimeWindows := ⟨[], []⟩

def isEmpty (w : TimeWindows) : Bool :=
  w.allowed.isEmpty && w.denied.isEmpty

/-- Whether a time is in order: in no denied window, and in an allowed one
where there are any. -/
def permits (w : TimeWindows) (t : TimeOfDay) : Bool :=
  !(w.denied.any (·.contains t)) && (w.allowed.isEmpty || w.allowed.any (·.contains t))

def schema : Json.Schema :=
  [⟨"allowedTimeRanges", ["allowed"]⟩, ⟨"deniedTimeRanges", ["denied"]⟩]

def toJson (w : TimeWindows) : Json.Value :=
  .record [
    ("allowedTimeRanges", some (.array (w.allowed.map TimeRange.toJson))),
    ("deniedTimeRanges", some (.array (w.denied.map TimeRange.toJson)))]

def ofJson? (v : Json.Value) : Option TimeWindows := do
  let slots ← v.slots? schema
  return {
    allowed := ← slots.defaulted "allowedTimeRanges" [] (·.asList? TimeRange.ofJson?)
    denied := ← slots.defaulted "deniedTimeRanges" [] (·.asList? TimeRange.ofJson?) }

end TimeWindows

namespace AccessList

def blank : AccessList := ⟨[], []⟩

def isEmpty (l : AccessList) : Bool :=
  l.allowed.isEmpty && l.denied.isEmpty

/-- Whether a value is in order: not denied, and allowed where anything is. A
value that is missing is never denied and never among the allowed ones. -/
def permits (l : AccessList) (value : Option String) : Bool :=
  !(value.any l.denied.contains) && (l.allowed.isEmpty || value.any l.allowed.contains)

def valuesToJson (values : List String) : Json.Value :=
  .array (values.map .text)

/-- Reads a list of texts that may be left out. -/
def valuesIn? (slots : Json.Slots) (name : String) : Option (List String) :=
  slots.defaulted name [] (·.asList? (·.asText?))

/-- A group of two lists as JSON, under the names of its lists. -/
def toJson (allowed denied : String) (l : AccessList) : Json.Value :=
  .record [(allowed, some (valuesToJson l.allowed)), (denied, some (valuesToJson l.denied))]

/-- Reads a group of two lists under the names of its lists. -/
def ofJson? (allowed denied : String) (v : Json.Value) : Option AccessList := do
  let slots ← v.slots? (.ofNames [allowed, denied])
  return ⟨← valuesIn? slots allowed, ← valuesIn? slots denied⟩

end AccessList

namespace ResourceLists

def blank : ResourceLists := ⟨.blank, .blank⟩

def isEmpty (l : ResourceLists) : Bool :=
  l.types.isEmpty && l.ids.isEmpty

def schema : Json.Schema :=
  .ofNames ["allowedResourceTypes", "deniedResourceTypes", "allowedResourceIds",
    "deniedResourceIds"]

def toJson (l : ResourceLists) : Json.Value :=
  .record [
    ("allowedResourceTypes", some (AccessList.valuesToJson l.types.allowed)),
    ("deniedResourceTypes", some (AccessList.valuesToJson l.types.denied)),
    ("allowedResourceIds", some (AccessList.valuesToJson l.ids.allowed)),
    ("deniedResourceIds", some (AccessList.valuesToJson l.ids.denied))]

def ofJson? (v : Json.Value) : Option ResourceLists := do
  let slots ← v.slots? schema
  return {
    types := ⟨← AccessList.valuesIn? slots "allowedResourceTypes",
      ← AccessList.valuesIn? slots "deniedResourceTypes"⟩
    ids := ⟨← AccessList.valuesIn? slots "allowedResourceIds",
      ← AccessList.valuesIn? slots "deniedResourceIds"⟩ }

end ResourceLists

namespace ConditionMode

def word : ConditionMode → String
  | .all => "ALL"
  | .any => "ANY"

def ofWord? : String → Option ConditionMode
  | "ALL" => some .all
  | "ANY" => some .any
  | _ => none

def ofJson? (v : Json.Value) : Option ConditionMode :=
  v.asWord?.bind ofWord?

end ConditionMode

namespace ConditionGroup

def kind : ConditionGroup → String
  | .time _ => "time"
  | .ip _ => "ip"
  | .user _ => "user"
  | .resource _ => "resource"

end ConditionGroup

namespace Conditions

/-- The conditions of a policy that has no conditions document. -/
def blank : Conditions :=
  ⟨.all, none, none, none, none⟩

instance : Inhabited Conditions := ⟨blank⟩

/-- The groups that restrict something, in a fixed order. -/
def groups (c : Conditions) : List ConditionGroup :=
  ((c.time.filter (!·.isEmpty)).map .time).toList ++
    ((c.ip.filter (!·.isEmpty)).map .ip).toList ++
    ((c.user.filter (!·.isEmpty)).map .user).toList ++
    ((c.resource.filter (!·.isEmpty)).map .resource).toList

def isUnrestricted (c : Conditions) : Bool :=
  c.groups.isEmpty

def ipNames : String × String := ("allowedIps", "deniedIps")

def userNames : String × String := ("allowedUsers", "deniedUsers")

def schema : Json.Schema :=
  .ofNames ["evaluationMode", "timeConditions", "ipConditions", "userConditions",
    "resourceConditions"]

def toJson (c : Conditions) : Json.Value :=
  .record [
    ("evaluationMode", some (.text c.mode.word)),
    ("timeConditions", c.time.map TimeWindows.toJson),
    ("ipConditions", c.ip.map (AccessList.toJson ipNames.1 ipNames.2)),
    ("userConditions", c.user.map (AccessList.toJson userNames.1 userNames.2)),
    ("resourceConditions", c.resource.map ResourceLists.toJson)]

def ofJson? (v : Json.Value) : Option Conditions := do
  let slots ← v.slots? schema
  let group (name : String) {α : Type} (decode : Json.Value → Option α) : Option (Option α) :=
    slots.defaulted name none (·.asOption? decode)
  return {
    mode := ← slots.defaulted "evaluationMode" blank.mode ConditionMode.ofJson?
    time := ← group "timeConditions" TimeWindows.ofJson?
    ip := ← group "ipConditions" (AccessList.ofJson? ipNames.1 ipNames.2)
    user := ← group "userConditions" (AccessList.ofJson? userNames.1 userNames.2)
    resource := ← group "resourceConditions" ResourceLists.ofJson? }

end Conditions

end DecisionPoint
