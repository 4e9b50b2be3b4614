import DecisionPoint.Cache.Lru
import DecisionPoint.Engine
import DecisionPoint.Store

/-!
An engine with all its collaborators in memory: a bounded cache, a store of
policies, a clock and a dispatcher. Time passes only where something takes
time, and ages the cache; the clock of the engine is set and moved by itself.
Any collaborator can be made to fail, to be late or to break down; the cache
also over single calls, since every key has faults of its own.
-/

namespace DecisionPoint

open Time (Instant)

/-- What is wrong with the calls of the cache about a key: those that fail, and
the time that a read takes. -/
structure CacheFaults where
  get : Bool
  set : Bool
  delete : Bool
  delay : Nat
deriving DecidableEq, Repr

def CacheFaults.none : CacheFaults :=
  ⟨false, false, false, 0⟩

/-- Faults by key, with those of one key replaced. -/
def CacheFaults.replace (faults : String → CacheFaults) (key : String) (f : CacheFaults) :
    String → CacheFaults :=
  fun k => if k = key then f else faults k

/-- What is wrong with a query of the store: the time it takes, and whether it
then breaks down or fails. -/
structure StoreFault where
  delay : Nat
  crashes : Bool
  error : Option StoreError
deriving DecidableEq, Repr

def StoreFault.none : StoreFault :=
  ⟨0, false, .none⟩

/-- What answers the queries: a store, or lists that are fixed, one without
tenant and one for each of some tenants. -/
inductive Backend where
  | memory (store : PolicyStore)
  | fixed (global : List Policy) (tenants : List (String × List Policy))
deriving Repr

namespace Backend

def findGlobal : Backend → List Policy × Backend
  | .memory store => let (found, store) := store.findGlobal; (found, .memory store)
  | .fixed global tenants => (global, .fixed global tenants)

def findActive (tenant : String) : Backend → List Policy × Backend
  | .memory store => let (found, store) := store.findActive tenant; (found, .memory store)
  | .fixed global tenants => ((tenants.lookup tenant).getD [], .fixed global tenants)

def change (f : PolicyStore → PolicyStore) : Backend → Backend
  | .memory store => .memory (f store)
  | .fixed global tenants => .fixed global tenants

def contains (key : String) : Backend → Bool
  | .memory store => store.contains key
  | .fixed _ _ => false

end Backend

/-- An engine and its collaborators. The faults of the cache are those of the
calls about a key, or about the keys that begin with a text. `elapsed` is the time
that has passed, in nanoseconds, and `tick` the span that the clock moves with
every reading. -/
structure Deployment where
  config : Config
  cache : LruCache
  cacheFaults : String → CacheFaults
  backend : Backend
  globalFault : StoreFault
  tenantFault : StoreFault
  clock : Instant
  tick : Nat
  elapsed : Nat
  dispatcher : Dispatcher

namespace Deployment

/-- An engine at rest with an empty cache. -/
def start (config : Config) (cacheCapacity : Nat) (backend : Backend) (clock : Instant)
    (tick : Nat) : Deployment where
  config := config
  cache := .empty cacheCapacity
  cacheFaults := fun _ => .none
  backend := backend
  globalFault := .none
  tenantFault := .none
  clock := clock
  tick := tick
  elapsed := 0
  dispatcher := .start config.workers.toNat config.queueCapacity.toNat

def wait (d : Deployment) (span : Nat) : Deployment :=
  { d with elapsed := d.elapsed + span }

def cacheDown : CacheError :=
  .unavailable "switched off"

def cacheGet (d : Deployment) (key : String) :
    Timed (Except CacheError (Option String)) × Deployment :=
  let fault := d.cacheFaults key
  let d := d.wait fault.delay
  if fault.get then
    (⟨.error cacheDown, fault.delay⟩, d)
  else
    let (value, cache) := d.cache.get d.elapsed key
    (⟨.ok value, fault.delay⟩, { d with cache })

def find (d : Deployment) (fault : StoreFault) (query : Backend → List Policy × Backend) :
    Option (Timed (Except StoreError (List Policy))) × Deployment :=
  let d := d.wait fault.delay
  if fault.crashes then
    (none, d)
  else
    match fault.error with
    | some e => (some ⟨.error e, fault.delay⟩, d)
    | none =>
      let (found, backend) := query d.backend
      (some ⟨.ok found, fault.delay⟩, { d with backend })

def collaborators : Collaborators Deployment
  | .cacheGet key, d => let (answer, d) := d.cacheGet key; (some answer, d)
  | .cacheSet key value ttl, d =>
    if (d.cacheFaults key).set then (some (.error cacheDown), d)
    else (some (.ok ()), { d with cache := d.cache.insert d.elapsed key value ttl })
  | .cacheDelete key, d =>
    if (d.cacheFaults key).delete then (some (.error cacheDown), d)
    else (some (.ok ()), { d with cache := d.cache.erase key })
  | .cacheDeleteAll start, d =>
    if (d.cacheFaults start).delete then (some (.error cacheDown), d)
    else
      let (removed, cache) := d.cache.erasePattern start
      (some (.ok removed), { d with cache })
  | .findGlobal _, d => d.find d.globalFault Backend.findGlobal
  | .findActive tenant _, d => d.find d.tenantFault (Backend.findActive tenant)
  | .now, d => (some d.clock, { d with clock := d.clock.advance d.tick })
  | .dispatch actions context, d =>
    (some (), { d with dispatcher := d.dispatcher.dispatch actions context })

def hold (d : Deployment) (dialogue : Dialogue α) : Course α Deployment :=
  dialogue.run collaborators d

/-- What a caller gets who waits for an evaluation up to a deadline, a span,
while it runs to its end in the background. -/
def awaited (deadline spent : Nat) : Option (Except EngineError Verdict) →
    Except EngineError Verdict
  | result =>
    if deadline < spent then
      .error (.storeTimeout (deadline / 1000000) (deadline / 1000000))
    else
      result.getD (.error .aborted)

/-- Evaluates a request for a caller who waits up to a deadline. The deadline
is the budget of the store where none is given. An unfit request is refused
before the evaluation is started. -/
def evaluateAsync (d : Deployment) (deadline : Option Nat) (r : Request) :
    Course (Except EngineError Verdict) Deployment :=
  match r.defect? with
  | some cause => ⟨some (.error (.invalidRequest cause)), [], d⟩
  | none =>
    let course := d.hold (Engine.evaluate d.config r)
    let spent := course.state.elapsed - d.elapsed
    { course with
      result := some (awaited (deadline.getD d.config.storeBudget) spent course.result) }

/-- Evaluates a request given by its wire text for a caller who waits up to a
deadline. -/
def evaluateTextAsync (d : Deployment) (deadline : Option Nat) (s : String) :
    Course (Except EngineError Verdict) Deployment :=
  match Request.ofText s with
  | .error e => ⟨some (.error e), [], d⟩
  | .ok r => d.evaluateAsync deadline r

end Deployment

end DecisionPoint
