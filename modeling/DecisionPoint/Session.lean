import DecisionPoint.Deployment

/-!
Sessions: an engine in memory put through one event after the other. Events
are what callers ask of the engine, what policy management does to the store,
what somebody does to the cache behind the engine's back, and what goes wrong.
After every event the workers make all the moves they can.
-/

namespace DecisionPoint

open Time (Instant)

inductive CacheEvent where
  | set (key value : String) (ttl : Nat)
  | get (key : String)
  | delete (key : String)
  | deletePattern (pattern : String)
  | contains (key : String)
  | size
  | keys
  | clear

inductive RecordEvent where
  | defaultTtl
  | getDecision (r : Request)
  | putDecision (r : Request) (v : Verdict)
  | getCandidates (tenant : Option String)
  | putCandidates (tenant : Option String) (policies : List Policy) (cap : Option Nat)
  | evictDecision (r : Request)
  | evictPolicy (resourceType action : String)
  | evictAll

inductive Event where
  | cache (e : CacheEvent)
  | record (e : RecordEvent)
  | evaluate (r : Request)
  | evaluateText (s : String)
  | evaluateAsync (r : Request) (deadline : Option Nat)
  | evaluateTextAsync (s : String) (deadline : Option Nat)
  | policyChanged (p : Policy)
  | upsert (p : Policy)
  | remove (key : String)
  | dispatch (actions : List Action) (context : ActionContext)
  /-- The same is wrong with all calls of the cache. -/
  | cacheFaults (f : CacheFaults)
  /-- Something is wrong with the calls about one key. -/
  | keyFaults (key : String) (f : CacheFaults)
  | storeFaults (global tenant : StoreFault)
  | wait (span : Nat)
  | setClock (now : Instant)
  | advanceClock (span : Nat)
  | hold
  | release
  | shutdown
  | stats
  | config

inductive Reply where
  | nothing
  | flag (b : Bool)
  | count (n : Nat)
  | size (n : Nat)
  | text (s : Option String)
  | keys (ks : List String)
  | verdict (v : Option Verdict)
  | policies (ps : Option (List Policy))
  | evaluation (outcome : Except EngineError Verdict)
  | config (c : Config)
  | crashed

/-- An event's answer with what the engine asked over it and the jobs that
were executed after it. -/
structure Step where
  reply : Reply
  transcript : List Exchange
  executed : List Job
  state : Deployment

namespace Deployment

def cacheEvent (d : Deployment) : CacheEvent → Reply × Deployment
  | .set key value ttl =>
    (.nothing, { d with cache := d.cache.insert d.elapsed key value ttl })
  | .get key =>
    let (value, cache) := d.cache.get d.elapsed key
    (.text value, { d with cache })
  | .delete key => (.nothing, { d with cache := d.cache.erase key })
  | .deletePattern pattern =>
    let (removed, cache) := d.cache.erasePattern pattern
    (.count removed, { d with cache })
  | .contains key => (.flag (d.cache.contains d.elapsed key), d)
  | .size => (.size d.cache.size, d)
  | .keys => (.keys d.cache.keys, d)
  | .clear => (.nothing, { d with cache := d.cache.clear })

def answer (d : Deployment) (dialogue : Dialogue α) (reply : α → Reply) :
    Course Reply Deployment :=
  let course := d.hold dialogue
  { course with result := course.result.map reply }

def recordEvent (d : Deployment) : RecordEvent → Course Reply Deployment
  | .defaultTtl => ⟨some (.count d.config.defaultTtl.toNat), [], d⟩
  | .getDecision r => d.answer (DecisionCache.getDecision d.config r) .verdict
  | .putDecision r v => d.answer (DecisionCache.putDecision d.config r v) fun _ => .nothing
  | .getCandidates tenant => d.answer (DecisionCache.getCandidates d.config tenant) .policies
  | .putCandidates tenant policies cap =>
    d.answer (DecisionCache.putCandidates d.config tenant policies cap) fun _ => .nothing
  | .evictDecision r => d.answer (DecisionCache.evictDecision r) fun _ => .nothing
  | .evictPolicy resourceType action =>
    d.answer (DecisionCache.evictPolicy resourceType action) .count
  | .evictAll => d.answer DecisionCache.evictAll .count

def quietly (step : Reply × Deployment) : Course Reply Deployment :=
  ⟨some step.1, [], step.2⟩

/-- Lets an event happen, before any worker moves. -/
def happen (d : Deployment) : Event → Course Reply Deployment
  | .cache e => quietly (d.cacheEvent e)
  | .record e => d.recordEvent e
  | .evaluate r => d.answer (Engine.evaluate d.config r) .evaluation
  | .evaluateText s => d.answer (Engine.evaluateText d.config s) .evaluation
  | .evaluateAsync r deadline =>
    let course := d.evaluateAsync deadline r
    { course with result := course.result.map .evaluation }
  | .evaluateTextAsync s deadline =>
    let course := d.evaluateTextAsync deadline s
    { course with result := course.result.map .evaluation }
  | .policyChanged _ => d.answer DecisionCache.evictAll .count
  | .upsert p => quietly (.nothing, { d with backend := d.backend.change (·.upsert p) })
  | .remove key =>
    quietly (.flag (d.backend.contains key), { d with backend := d.backend.change (·.erase key) })
  | .dispatch actions context =>
    quietly (.nothing, { d with dispatcher := d.dispatcher.dispatch actions context })
  | .cacheFaults f => quietly (.nothing, { d with cacheFaults := fun _ => f })
  | .keyFaults key f =>
    quietly (.nothing, { d with cacheFaults := CacheFaults.replace d.cacheFaults key f })
  | .storeFaults global tenant =>
    quietly (.nothing, { d with globalFault := global, tenantFault := tenant })
  | .wait span => quietly (.nothing, d.wait span)
  | .setClock now => quietly (.nothing, { d with clock := now })
  | .advanceClock span => quietly (.nothing, { d with clock := d.clock.advance span })
  | .hold => quietly (.nothing, { d with dispatcher := d.dispatcher.hold })
  | .release => quietly (.nothing, { d with dispatcher := d.dispatcher.release })
  | .shutdown => quietly (.nothing, { d with dispatcher := d.dispatcher.shutdown })
  | .stats => quietly (.nothing, d)
  | .config => quietly (.config d.config, d)

/-- Lets an event happen and the workers make their moves. -/
def step (executor : Executor) (d : Deployment) (e : Event) : Step :=
  let course := d.happen e
  let (executed, dispatcher) := course.state.dispatcher.settle executor
  { reply := course.result.getD .crashed
    transcript := course.transcript
    executed
    state := { course.state with dispatcher } }

def play (executor : Executor) (d : Deployment) : List Event → List Step
  | [] => []
  | e :: es =>
    let step := d.step executor e
    step :: step.state.play executor es

end Deployment

end DecisionPoint
