import DecisionPoint.Cache.Key
import DecisionPoint.Config
import DecisionPoint.Dialogue
import DecisionPoint.Verdict

/-!
What the engine keeps in the cache: verdicts under the key of their request,
and lists of candidate policies under their scope. The cache may fail at any
time and hold anything. A read that fails, takes too long or finds something
that is no such record counts as finding nothing, and a write or an eviction
that fails is let go.
-/

namespace DecisionPoint.DecisionCache

/-- The text kept under a key, if the read succeeds within its budget. -/
def readText (budget : Nat) (key : String) : Dialogue (Option String) := do
  let answer ← Dialogue.query (.cacheGet key)
  match answer.outcome with
  | .ok (some text) => return if budget < answer.elapsed then none else some text
  | _ => return none

def getDecision (c : Config) (r : Request) : Dialogue (Option Verdict) := do
  return (← readText c.cacheBudget (Key.decision r)).bind Verdict.ofText?

def getCandidates (c : Config) (tenant : Option String) : Dialogue (Option (List Policy)) := do
  return (← readText c.cacheBudget (Key.candidates tenant)).bind Policy.listOfText?

/-- Keeps a text for a span. Nothing is kept for no time at all. -/
def write (key text : String) (ttl : Nat) : Dialogue Unit :=
  if ttl = 0 then
    return ()
  else do
    let _ ← Dialogue.query (.cacheSet key text ttl)
    return ()

/-- The minutes that a verdict is kept: its own lifetime, or the one of the
settings. -/
def lifetime (c : Config) (v : Verdict) : UInt32 :=
  v.expirationMinutes.getD c.defaultTtl

def putDecision (c : Config) (r : Request) (v : Verdict) : Dialogue Unit :=
  write (Key.decision r) v.toText (Time.ofMinutes (lifetime c v).toNat)

/-- The span that candidates are kept, at most `cap`. -/
def candidateTtl (c : Config) (cap : Option Nat) : Nat :=
  let ttl := Time.ofMinutes c.candidateTtl.toNat
  cap.elim ttl (min · ttl)

def putCandidates (c : Config) (tenant : Option String) (policies : List Policy)
    (cap : Option Nat) : Dialogue Unit :=
  write (Key.candidates tenant) (Policy.listToText policies) (candidateTtl c cap)

def evictDecision (r : Request) : Dialogue Unit := do
  let _ ← Dialogue.query (.cacheDelete (Key.decision r))
  return ()

/-- Removes all keys that begin with a text, and counts them. -/
def evictAllUnder (start : String) : Dialogue Nat := do
  match ← Dialogue.query (.cacheDeleteAll start) with
  | .ok removed => return removed
  | .error _ => return 0

/-- Removes all verdicts on an action on a resource type, and counts them. -/
def evictPolicy (resourceType action : String) : Dialogue Nat :=
  evictAllUnder (Key.decisionsOn resourceType action)

/-- Removes all verdicts and all candidates, and counts them. -/
def evictAll : Dialogue Nat := do
  let verdicts ← evictAllUnder Key.decisions
  let lists ← evictAllUnder Key.candidateLists
  return verdicts + lists

end DecisionPoint.DecisionCache
