import DecisionPoint.Config
import DecisionPoint.Policy.Basic
import DecisionPoint.Policy.Document
import DecisionPoint.Verdict

/-!
Deciding a request from the policies of its scope. Policies come by falling
priority and, of equal priority, by key; the first whose conditions match
decides by its rules. The verdict lives no longer than the set of policies in
force stays the same and the request itself is valid.

Nothing here asks anybody anything: all is a function of the settings, the
request, the policies and the present instant.
-/

namespace DecisionPoint

open Time (Instant TimeOfDay)

/-! ## Conditions -/

/-- Whether a group lets a request pass at a local time. -/
def ConditionGroup.passes (g : ConditionGroup) (r : Request) (t : TimeOfDay) : Bool :=
  match g with
  | .time windows => windows.permits t
  | .ip list => list.permits r.clientIp
  | .user list => list.permits (some r.user)
  | .resource lists => lists.types.permits (some r.resourceType) && lists.ids.permits r.resourceId

/-- Whether conditions match a request at a local time. Conditions without a
group match every request. -/
def Conditions.matches (c : Conditions) (r : Request) (t : TimeOfDay) : Bool :=
  match c.groups, c.mode with
  | [], _ => true
  | groups, .all => groups.all (·.passes r t)
  | groups, .any => groups.any (·.passes r t)

namespace Policy

def applies (p : Policy) (r : Request) (t : TimeOfDay) : Bool :=
  (Conditions.ofDocument (p.conditions.getD "")).matches r t

def outcome (p : Policy) : RuleOutcome :=
  (Rules.ofDocument (p.rules.getD "")).decide

def actionList (p : Policy) : List Action :=
  p.actions.elim [] Action.ofDocument

/-! ## Candidates -/

/-- The first policy of each key that is not among `seen`. -/
def distinctBeyond (seen : List String) : List Policy → List Policy
  | [] => []
  | p :: ps =>
    if seen.contains p.key then distinctBeyond seen ps
    else p :: distinctBeyond (p.key :: seen) ps

def distinct (policies : List Policy) : List Policy :=
  distinctBeyond [] policies

/-- The next instant at which one of some policies takes effect or ends. -/
def nextChange (policies : List Policy) (now : Instant) : Option Instant :=
  Instant.earliest? ((policies.flatMap bounds).filter fun t => now < t)

/-- Whether `p` is looked at no later than `q`. -/
def precedes (p q : Policy) : Bool :=
  q.priority < p.priority || (p.priority == q.priority && p.key ≤ q.key)

/-- The policies that are in force at an instant, in the order in which they
are looked at. -/
def inForce (policies : List Policy) (now : Instant) : List Policy :=
  (policies.filter fun p => p.isCandidate && p.isEffectiveAt now).mergeSort precedes

end Policy

/-! ## Verdicts -/

namespace TraceEntry

def skipped (p : Policy) : TraceEntry :=
  ⟨p.key, p.priority, false, none, none⟩

def decided (p : Policy) : TraceEntry :=
  ⟨p.key, p.priority, true, some p.outcome.decision, p.outcome.ruleId⟩

end TraceEntry

/-- The first policy that applies, and the trace up to it. -/
def search (r : Request) (t : TimeOfDay) : List Policy → Option Policy × List TraceEntry
  | [] => (none, [])
  | p :: ps =>
    if p.applies r t then
      (some p, [.decided p])
    else
      let (winner, trace) := search r t ps
      (winner, .skipped p :: trace)

def reasonOf (p : Policy) : String :=
  match p.outcome.ruleId with
  | some id => s!"policy '{p.name}' matched rule '{id}'"
  | none => s!"policy '{p.name}' applied its default action"

def verdictOf (p : Policy) (now : Instant) : Verdict :=
  { Verdict.make p.outcome.decision (reasonOf p) now with
    policyKey := some p.key
    policyName := some p.name }

def verdictOfNone (c : Config) (now : Instant) : Verdict :=
  .make c.noMatch s!"no applicable policy, defaulting to {c.noMatch.phrase}" now

/-- The minutes up to a deadline, at most `ttl` and none for a deadline that
has passed or comes within the minute. -/
def cappedBy (now : Instant) (ttl : UInt32) (deadline : Instant) : UInt32 :=
  let minutes := Instant.wholeMinutes (deadline.since now)
  if minutes ≤ 0 then 0 else min ttl (UInt32.ofNat (min minutes.toNat (UInt32.size - 1)))

/-- The minutes that a verdict lives: those of the settings, at most up to the
end of the request and up to the next change among the policies. -/
def lifetimeOf (c : Config) (r : Request) (change : Option Instant) (now : Instant) : UInt32 :=
  (r.expiresAt.toList ++ change.toList).foldl (cappedBy now) c.defaultTtl

structure Ruling where
  verdict : Verdict
  winner : Option Policy
deriving Repr

/-- Decides a request from the policies of its scope. -/
def rule (c : Config) (r : Request) (policies : List Policy) (now : Instant) : Ruling :=
  let (winner, trace) := search r (.ofInstant now c.utcOffset) (Policy.inForce policies now)
  let verdict := winner.elim (verdictOfNone c now) (verdictOf · now)
  { verdict := { verdict with
      expirationMinutes := some (lifetimeOf c r (Policy.nextChange policies now) now)
      trace := if c.details then some trace else none }
    winner }

end DecisionPoint
