import DecisionPoint.Cache.Decisions
import DecisionPoint.Evaluation

/-!
The engine: how one request is decided in dialogue with the cache, the store,
the clock and the dispatcher. A request that is unfit is refused before
anything is asked. A verdict found in the cache is the answer as it stands.
Otherwise the candidates are loaded, from the cache or from the store, the
request is decided, the verdict is kept, and the actions of the policy that
decided are dispatched.

Only the store can make a decision fail, and then nothing has been kept or
dispatched.
-/

namespace DecisionPoint.Engine

open Time (Instant)

/-- The policies that a query found, if it succeeded within its budget. -/
def judge (budget : Nat) (answer : Timed (Except StoreError (List Policy))) :
    Except EngineError (List Policy) :=
  match answer.outcome with
  | .error e => .error e.toEngine
  | .ok policies =>
    if budget < answer.elapsed then
      .error (.storeTimeout (answer.elapsed / 1000000) (budget / 1000000))
    else
      .ok policies

/-- Asks the store for the policies of a scope: those of no tenant, and behind
them those of the tenant, if there is one. -/
def queryStore (c : Config) (tenant : Option String) (now : Instant) :
    Dialogue (Except EngineError (List Policy)) := do
  match judge c.storeBudget (← Dialogue.query (.findGlobal now)), tenant with
  | .error e, _ => return .error e
  | .ok policies, none => return .ok policies
  | .ok policies, some tenant =>
    let answer ← Dialogue.query (.findActive tenant now)
    return (judge c.storeBudget answer).map (policies ++ ·)

/-- The longest that candidates may be kept: up to the next change among them.
Where the difference to that instant comes out negative there is no bound. -/
def candidateCap (policies : List Policy) (now : Instant) : Option Nat :=
  (Policy.nextChange policies now).bind fun change =>
    let span := change.since now
    if span < 0 then none else some span.toNat

/-- The candidates kept for a scope, where keeping them is switched on. -/
def keptCandidates (c : Config) (tenant : Option String) : Dialogue (Option (List Policy)) :=
  if c.cacheCandidates then DecisionCache.getCandidates c tenant else return none

/-- The candidates of a scope: those that are kept, or else those of the
store, which are then kept. Of policies with one key the first counts. -/
def candidates (c : Config) (tenant : Option String) (now : Instant) :
    Dialogue (Except EngineError (List Policy)) := do
  match ← keptCandidates c tenant with
  | some policies => return .ok policies
  | none =>
    match ← queryStore c tenant now with
    | .error e => return .error e
    | .ok found =>
      let policies := Policy.distinct found
      if c.cacheCandidates then
        DecisionCache.putCandidates c tenant policies (candidateCap policies now)
      return .ok policies

def contextOf (p : Policy) (r : Request) (v : Verdict) : ActionContext where
  policyKey := p.key
  decision := v.decision
  user := r.user
  tenant := r.tenant
  resourceType := r.resourceType
  resourceId := r.resourceId
  clientIp := r.clientIp

/-- Dispatches the actions of the policy that decided, if it has any. -/
def dispatchActions (ruling : Ruling) (r : Request) : Dialogue Unit :=
  match ruling.winner with
  | none => return ()
  | some p =>
    if p.actionList.isEmpty then return ()
    else Dialogue.query (.dispatch p.actionList (contextOf p r ruling.verdict))

/-- Decides a request that no kept verdict answers. -/
def evaluateAnew (c : Config) (r : Request) : Dialogue (Except EngineError Verdict) := do
  let now ← Dialogue.query .now
  match ← candidates c r.tenant now with
  | .error e => return .error e
  | .ok policies =>
    let ruling := rule c r policies now
    DecisionCache.putDecision c r ruling.verdict
    dispatchActions ruling r
    return .ok ruling.verdict

def evaluate (c : Config) (r : Request) : Dialogue (Except EngineError Verdict) :=
  match r.defect? with
  | some cause => return .error (.invalidRequest cause)
  | none => do
    match ← DecisionCache.getDecision c r with
    | some v => return .ok v
    | none => evaluateAnew c r

def evaluateText (c : Config) (s : String) : Dialogue (Except EngineError Verdict) :=
  match Request.ofText s with
  | .error e => return .error e
  | .ok r => evaluate c r

end DecisionPoint.Engine
