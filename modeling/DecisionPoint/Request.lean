import DecisionPoint.Error
import DecisionPoint.Time.Timestamp

/-!
Requests for a decision: their wire form and the checks they must pass before
anything is looked up for them.
-/

namespace DecisionPoint

open Time (Instant)

/-- A request: may this user take this action on a resource of this type? -/
structure Request where
  resourceType : String
  resourceId : Option String
  action : String
  user : String
  tenantField : Option String
  clientIp : Option String
  timestamp : Instant
  expiresAt : Option Instant
deriving DecidableEq, Repr

namespace Request

/-- The tenant of a request, without blanks around it. A tenant that is blank
is no tenant. -/
def tenant (r : Request) : Option String :=
  (r.tenantField.map Text.trim).filter (· ≠ "")

/-- The fields that must say something. -/
def requiredFields (r : Request) : List (String × String) :=
  [("resourceType", r.resourceType), ("action", r.action), ("userId", r.user)]

/-- The fields that cache keys are made of. -/
def keyedFields (r : Request) : List (String × String) :=
  r.requiredFields ++ (r.tenant.map ("tenantKey", ·)).toList

/-- What makes a request unfit to be decided: a field that says nothing, or
else a field of the key that holds the separator of keys. -/
def defect? (r : Request) : Option RequestError :=
  match r.requiredFields.find? fun f => Text.trim f.2 = "" with
  | some (field, _) => some (.required field)
  | none =>
    (r.keyedFields.find? fun f => f.2.toList.contains ':').map fun f => .holdsSeparator f.1

/-! ## The wire form -/

def timestampToJson (t : Instant) : Json.Value :=
  .text (String.ofList t.wireText)

def toJson (r : Request) : Json.Value :=
  .record [
    ("resourceType", some (.text r.resourceType)),
    ("resourceId", r.resourceId.map .text),
    ("action", some (.text r.action)),
    ("userId", some (.text r.user)),
    ("tenantKey", r.tenantField.map .text),
    ("clientIp", r.clientIp.map .text),
    ("timestamp", some (timestampToJson r.timestamp)),
    ("expiresAt", r.expiresAt.map timestampToJson)]

def toText (r : Request) : String :=
  r.toJson.toText

/-- What the members of a request decode to, as far as they were given. -/
structure Draft where
  resourceType : String
  resourceId : Option String
  action : String
  user : String
  tenantField : Option String
  clientIp : Option String
  timestamp : Option Instant
  expiresAt : Option Instant

def Draft.blank : Draft :=
  ⟨"", none, "", "", none, none, none, none⟩

def textOf : Json.Value → Except RequestDefect String
  | .string (some s) => .ok s
  | v => .error (.notText v)

def timestampOf (v : Json.Value) : Except RequestDefect Instant := do
  let s ← textOf v
  match Instant.ofWireText? s.toList with
  | some t => return t
  | none => .error (.badTimestamp s)

def optionalOf (decode : Json.Value → Except RequestDefect α) :
    Json.Value → Except RequestDefect (Option α)
  | .null => .ok none
  | v => (decode v).map some

/-- Decodes one member into a draft. Members of other names are skipped. -/
def Draft.add (d : Draft) : String × Json.Value → Except RequestDefect Draft
  | ("resourceType", v) => return { d with resourceType := ← textOf v }
  | ("resourceId", v) => return { d with resourceId := ← optionalOf textOf v }
  | ("action", v) => return { d with action := ← textOf v }
  | ("userId", v) => return { d with user := ← textOf v }
  | ("tenantKey", v) => return { d with tenantField := ← optionalOf textOf v }
  | ("clientIp", v) => return { d with clientIp := ← optionalOf textOf v }
  | ("timestamp", v) => return { d with timestamp := some (← timestampOf v) }
  | ("expiresAt", v) => return { d with expiresAt := ← optionalOf timestampOf v }
  | _ => .ok d

/-- The request of a draft, whose timestamp must have been given. -/
def Draft.finish (d : Draft) : Except RequestDefect Request :=
  match d.timestamp with
  | none => .error (.missing "timestamp")
  | some timestamp =>
    .ok ⟨d.resourceType, d.resourceId, d.action, d.user, d.tenantField, d.clientIp, timestamp,
      d.expiresAt⟩

/-- Puts a member into a list sorted by name, in the place of one that has its
name already. -/
def insertMember (member : String × Json.Value) :
    List (String × Json.Value) → List (String × Json.Value)
  | [] => [member]
  | first :: rest =>
    if member.1 < first.1 then member :: first :: rest
    else if member.1 = first.1 then member :: rest
    else first :: insertMember member rest

/-- The members of an object sorted by name, of members with one name the last.
Members whose name spells no text are left out. -/
def sortMembers (members : List (Json.Literal × Json.Value)) : List (String × Json.Value) :=
  members.foldl (fun sorted (name, v) => name.elim sorted fun n => insertMember (n, v) sorted) []

/-- Reads a request from its wire text. Every part of the text must be in
order. Members are decoded in the order of their names, and the first that
cannot be decoded is reported. -/
def ofText (s : String) : Except EngineError Request :=
  match Json.Value.ofStrictText? s with
  | none => .error (.invalidRequest .notJson)
  | some .null => .error (.invalidRequest .isNull)
  | some (.object members) =>
    match (sortMembers members).foldlM Draft.add Draft.blank >>= Draft.finish with
    | .ok r => .ok r
    | .error defect => .error (.invalidRequest (.undecodable defect))
  | some _ => .error (.invalidRequest .notObject)

end Request

end DecisionPoint
