import DecisionPoint.Deployment
import DecisionPoint.Proofs.Cache.Key
import DecisionPoint.Proofs.Cache.Lru
import DecisionPoint.Proofs.Time.Instant

/-!
Courses of dialogues with the collaborators in memory. A dialogue that goes on
with the result of another is held after it. Every question leaves settings,
faults, clock and stored policies alone, takes no negative time, and brings
into the cache no entry but the one it says.
-/

namespace DecisionPoint

open Time (Instant)

/-! ## Dialogues one after the other -/

namespace Course

/-- Goes on after a course, unless a collaborator broke down in it. -/
def andThen (course : Course α σ) (next : α → σ → Course β σ) : Course β σ :=
  match course.result with
  | none => ⟨none, course.transcript, course.state⟩
  | some a =>
    let rest := next a course.state
    { rest with transcript := course.transcript ++ rest.transcript }

end Course

namespace Dialogue

theorem run_pure (collaborators : Collaborators σ) (a : α) (s : σ) :
    (pure a : Dialogue α).run collaborators s = ⟨some a, [], s⟩ :=
  rfl

/-- A dialogue that goes on with another is held one after the other. -/
theorem run_bind (collaborators : Collaborators σ) (d : Dialogue α) (f : α → Dialogue β) (s : σ) :
    (d >>= f).run collaborators s =
      (d.run collaborators s).andThen fun a s => (f a).run collaborators s := by
  induction d generalizing s with
  | done result => rfl
  | ask question next ih =>
      change Dialogue.run collaborators (.ask question fun answer => (next answer).bind f) s = _
      simp only [run]
      cases hanswer : collaborators question s with
      | mk answer after =>
        cases answer with
        | none => rfl
        | some answer =>
            have hrest := ih answer after
            simp only [Bind.bind] at hrest
            simp only [hrest, Course.andThen]
            cases ((next answer).run collaborators after).result with
            | none => rfl
            | some a => rfl

end Dialogue

/-- The store is asked query by query, and what a query found is judged before the next one
is made. -/
theorem queryStore_eq (c : Config) (tenant : Option String) (now : Instant) :
    Engine.queryStore c tenant now =
      (do return Engine.judge c.storeBudget (← Dialogue.query (.findGlobal now))) >>= fun
        | .error e => return .error e
        | .ok found => tenant.elim (return .ok found) fun name =>
          (do return Engine.judge c.storeBudget (← Dialogue.query (.findActive name now))) >>=
            fun own => return own.map (found ++ ·) := by
  refine congrArg (Dialogue.ask (.findGlobal now)) ?_
  funext answer
  change _ = Dialogue.bind (.done (Engine.judge c.storeBudget answer)) _
  simp only [Dialogue.bind]
  cases Engine.judge c.storeBudget answer with
  | error e => rfl
  | ok found =>
      cases tenant with
      | none => rfl
      | some name => rfl

/-! ## The queries of a transcript -/

/-- The scope, the instant and the finds of a query of the store that was
answered. -/
def Exchange.query? : Exchange → Option (Option String × Instant × List Policy)
  | ⟨.findGlobal now, some ⟨.ok found, _⟩⟩ => some (none, now, found)
  | ⟨.findActive tenant now, some ⟨.ok found, _⟩⟩ => some (some tenant, now, found)
  | _ => none

def queries (transcript : List Exchange) : List (Option String × Instant × List Policy) :=
  transcript.filterMap Exchange.query?

/-- Whether the store was asked for the policies of a scope at an instant, and
these are what it answered. -/
def Queried (transcript : List Exchange) (tenant : Option String) (now : Instant)
    (found : List Policy) : Prop :=
  ∃ global, (none, now, global) ∈ queries transcript ∧
    match tenant with
    | none => found = global
    | some t => ∃ own, (some t, now, own) ∈ queries transcript ∧ found = global ++ own

theorem Exchange.query?_findGlobal (now : Instant)
    {answer : Timed (Except StoreError (List Policy))} {found : List Policy}
    (h : answer.outcome = .ok found) :
    Exchange.query? ⟨.findGlobal now, some answer⟩ = some (none, now, found) := by
  obtain ⟨outcome, elapsed⟩ := answer
  cases h
  rfl

theorem Exchange.query?_findActive (tenant : String) (now : Instant)
    {answer : Timed (Except StoreError (List Policy))} {found : List Policy}
    (h : answer.outcome = .ok found) :
    Exchange.query? ⟨.findActive tenant now, some answer⟩ = some (some tenant, now, found) := by
  obtain ⟨outcome, elapsed⟩ := answer
  cases h
  rfl

theorem queries_mono {part whole : List Exchange} (hpart : ∀ x ∈ part, x ∈ whole) :
    ∀ q ∈ queries part, q ∈ queries whole := by
  intro q hq
  obtain ⟨x, hx, hxq⟩ := List.mem_filterMap.mp hq
  exact List.mem_filterMap.mpr ⟨x, hpart x hx, hxq⟩

theorem Queried.mono {part whole : List Exchange} {tenant : Option String} {now : Instant}
    {found : List Policy} (h : Queried part tenant now found)
    (hpart : ∀ x ∈ part, x ∈ whole) : Queried whole tenant now found := by
  obtain ⟨global, hglobal, hrest⟩ := h
  refine ⟨global, queries_mono hpart _ hglobal, ?_⟩
  cases tenant with
  | none => exact hrest
  | some t =>
      obtain ⟨own, hown, heq⟩ := hrest
      exact ⟨own, queries_mono hpart _ hown, heq⟩

/-! ## What a dialogue leaves alone -/

namespace Backend

/-- What is stored, whatever the queries that were answered. -/
def uncounted : Backend → Backend
  | .memory store => .memory { store with queries := 0 }
  | .fixed global tenants => .fixed global tenants

/-- What the queries of a scope find: the policies of no tenant, and behind
them those of the tenant, if there is one. -/
def found (b : Backend) (tenant : Option String) : List Policy :=
  b.findGlobal.1 ++ tenant.elim [] fun t => (b.findActive t).1

theorem found_uncounted (b : Backend) (tenant : Option String) :
    b.uncounted.found tenant = b.found tenant := by
  cases b <;> rfl

def policies : Backend → List Policy
  | .memory store => store.policies
  | .fixed global tenants => global ++ tenants.flatMap Prod.snd

theorem policies_uncounted (b : Backend) : b.uncounted.policies = b.policies := by
  cases b <;> rfl

theorem mem_of_lookup {tenants : List (String × List Policy)} {tenant : String} {p : Policy}
    (h : p ∈ (tenants.lookup tenant).getD []) : p ∈ tenants.flatMap Prod.snd := by
  induction tenants with
  | nil => cases h
  | cons first rest ih =>
      obtain ⟨name, policies⟩ := first
      rw [List.flatMap_cons]
      rw [List.lookup_cons] at h
      split at h
      · exact List.mem_append_left _ h
      · exact List.mem_append_right _ (ih h)

theorem mem_of_mem_found {b : Backend} {tenant : Option String} {p : Policy}
    (h : p ∈ b.found tenant) : p ∈ b.policies := by
  cases b with
  | memory store =>
      rcases List.mem_append.mp h with hglobal | hown
      · exact (List.mem_filter.mp hglobal).1
      · cases tenant with
        | none => cases hown
        | some t => exact (List.mem_filter.mp hown).1
  | fixed global tenants =>
      rcases List.mem_append.mp h with hglobal | hown
      · exact List.mem_append_left _ hglobal
      · cases tenant with
        | none => cases hown
        | some t => exact List.mem_append_right _ (mem_of_lookup hown)

theorem findActive_uncounted (b : Backend) (tenant : String) :
    (b.uncounted.findActive tenant).1 = (b.findActive tenant).1 := by
  cases b <;> rfl

theorem uncounted_findGlobal (b : Backend) : b.findGlobal.2.uncounted = b.uncounted := by
  cases b <;> rfl

theorem uncounted_findActive (tenant : String) (b : Backend) :
    (b.findActive tenant).2.uncounted = b.uncounted := by
  cases b <;> rfl

/-- Stores that differ in the count of queries alone hold the same policies. -/
theorem stored_of_uncounted {b c : Backend} (h : c.uncounted = b.uncounted) {store : PolicyStore}
    (hb : b = .memory store) : ∃ store', c = .memory store' ∧ store'.policies = store.policies := by
  subst hb
  cases c with
  | fixed global tenants => cases h
  | memory store' =>
      simp only [uncounted, memory.injEq, PolicyStore.mk.injEq, and_true] at h
      exact ⟨store', rfl, h⟩

end Backend

/-- Whether nothing is wrong with the two deletions of the eviction of everything. -/
def CacheFaults.canEvictAll (faults : String → CacheFaults) : Bool :=
  !(faults Key.decisions).delete && !(faults Key.candidateLists).delete

namespace Deployment

/-- Nothing differs but the cache, the time that has passed and the actions,
and the clock where every reading moves it. -/
structure SameWorld (d after : Deployment) : Prop where
  config : after.config = d.config
  cacheFaults : after.cacheFaults = d.cacheFaults
  globalFault : after.globalFault = d.globalFault
  tenantFault : after.tenantFault = d.tenantFault
  clock : d.tick = 0 → after.clock = d.clock
  tick : after.tick = d.tick
  backend : after.backend.uncounted = d.backend.uncounted
  elapsed : d.elapsed ≤ after.elapsed
  capacity : after.cache.capacity = d.cache.capacity

theorem SameWorld.refl (d : Deployment) : SameWorld d d :=
  ⟨rfl, rfl, rfl, rfl, fun _ => rfl, rfl, rfl, Nat.le_refl _, rfl⟩

theorem SameWorld.trans {a b c : Deployment} (hab : SameWorld a b) (hbc : SameWorld b c) :
    SameWorld a c where
  config := by rw [hbc.config, hab.config]
  cacheFaults := by rw [hbc.cacheFaults, hab.cacheFaults]
  globalFault := by rw [hbc.globalFault, hab.globalFault]
  tenantFault := by rw [hbc.tenantFault, hab.tenantFault]
  clock := by
    intro htick
    rw [hbc.clock (by rw [hab.tick, htick]), hab.clock htick]
  tick := by rw [hbc.tick, hab.tick]
  backend := by rw [hbc.backend, hab.backend]
  elapsed := Nat.le_trans hab.elapsed hbc.elapsed
  capacity := by rw [hbc.capacity, hab.capacity]

theorem SameWorld.found {d after : Deployment} (h : SameWorld d after) (tenant : Option String) :
    after.backend.found tenant = d.backend.found tenant := by
  rw [← Backend.found_uncounted, h.backend, Backend.found_uncounted]

theorem SameWorld.policies {d after : Deployment} (h : SameWorld d after) :
    after.backend.policies = d.backend.policies := by
  rw [← Backend.policies_uncounted, h.backend, Backend.policies_uncounted]

/-- A dialogue that goes on with a result is held on from the state that the
result left. -/
theorem hold_bind {d after : Deployment} {x : Dialogue α} {a : α} {transcript : List Exchange}
    (h : d.hold x = ⟨some a, transcript, after⟩) (f : α → Dialogue β) :
    d.hold (x >>= f) = ⟨(after.hold (f a)).result, transcript ++ (after.hold (f a)).transcript,
      (after.hold (f a)).state⟩ := by
  rw [hold] at h
  rw [hold, Dialogue.run_bind, h]
  rfl

theorem hold_bind_none {d after : Deployment} {x : Dialogue α} {transcript : List Exchange}
    (h : d.hold x = ⟨none, transcript, after⟩) (f : α → Dialogue β) :
    d.hold (x >>= f) = ⟨none, transcript, after⟩ := by
  rw [hold] at h
  rw [hold, Dialogue.run_bind, h]
  rfl

/-! ## Reads and writes of the cache -/

/-- The text that a read of a key finds within a budget. -/
def readable? (d : Deployment) (budget : Nat) (key : String) : Option String :=
  if (d.cacheFaults key).get || budget < (d.cacheFaults key).delay then none
  else (d.cache.get (d.elapsed + (d.cacheFaults key).delay) key).1

def looked (d : Deployment) (key : String) : Deployment :=
  if (d.cacheFaults key).get then d.wait (d.cacheFaults key).delay
  else { d.wait (d.cacheFaults key).delay with
    cache := (d.cache.get (d.elapsed + (d.cacheFaults key).delay) key).2 }

/-- A read asks the cache once and answers the text that comes within the budget. -/
theorem hold_readText (d : Deployment) (budget : Nat) (key : String) :
    d.hold (DecisionCache.readText budget key) =
      ⟨some (d.readable? budget key), [⟨.cacheGet key, some (d.cacheGet key).1⟩],
        d.looked key⟩ := by
  by_cases hfault : (d.cacheFaults key).get = true
  · simp [hold, DecisionCache.readText, Dialogue.run_bind, Dialogue.query, Dialogue.run,
      Dialogue.run_pure, Course.andThen, collaborators, cacheGet, readable?, looked, wait, hfault]
  · cases hvalue : (d.cache.get (d.elapsed + (d.cacheFaults key).delay) key).1 with
    | none =>
        simp [hold, DecisionCache.readText, Dialogue.run_bind, Dialogue.query, Dialogue.run,
          Dialogue.run_pure, Course.andThen, collaborators, cacheGet, readable?, looked, wait,
          hfault, hvalue]
    | some value =>
        simp [hold, DecisionCache.readText, Dialogue.run_bind, Dialogue.query, Dialogue.run,
          Dialogue.run_pure, Course.andThen, collaborators, cacheGet, readable?, looked, wait,
          hfault, hvalue]

theorem cacheGet_state (d : Deployment) (key : String) : (d.cacheGet key).2 = d.looked key := by
  by_cases hfault : (d.cacheFaults key).get = true
  · simp [cacheGet, looked, wait, hfault]
  · simp [cacheGet, looked, wait, hfault]

theorem sameWorld_looked (d : Deployment) (key : String) : SameWorld d (d.looked key) := by
  unfold looked
  split
  · exact ⟨rfl, rfl, rfl, rfl, fun _ => rfl, rfl, rfl, Nat.le_add_right _ _, rfl⟩
  · exact ⟨rfl, rfl, rfl, rfl, fun _ => rfl, rfl, rfl, Nat.le_add_right _ _,
      LruCache.capacity_get _ _ _⟩

theorem clock_looked (d : Deployment) (key : String) : (d.looked key).clock = d.clock := by
  unfold looked
  split <;> rfl

theorem mem_of_mem_looked {d : Deployment} {key : String} {e : CacheEntry}
    (h : e ∈ (d.looked key).cache.entries) : e ∈ d.cache.entries := by
  unfold looked at h
  split at h
  · exact h
  · exact LruCache.mem_of_mem_get h

/-- What is read is the value of an entry that is still alive. -/
theorem live_of_readable? {d : Deployment} {budget : Nat} {key value : String}
    (h : d.readable? budget key = some value) :
    ∃ e ∈ d.cache.entries, e.key = key ∧ e.value = value ∧ d.elapsed < e.expiresAt := by
  unfold readable? at h
  split at h
  · cases h
  · obtain ⟨e, hmem, hkey, hvalue, hlive⟩ := LruCache.live_of_get h
    exact ⟨e, hmem, hkey, hvalue, by omega⟩

def written (d : Deployment) (key text : String) (ttl : Nat) : Deployment :=
  if ttl = 0 ∨ (d.cacheFaults key).set then d
  else { d with cache := d.cache.insert d.elapsed key text ttl }

/-- A write always returns; what it leaves behind depends on the faults of its key. -/
theorem hold_write (d : Deployment) (key text : String) (ttl : Nat) :
    ∃ transcript, d.hold (DecisionCache.write key text ttl) =
      ⟨some (), transcript, d.written key text ttl⟩ := by
  by_cases hspan : ttl = 0
  · exact ⟨[], by simp [hold, DecisionCache.write, Dialogue.run_pure, written, hspan]⟩
  · by_cases hfault : (d.cacheFaults key).set = true
    · refine ⟨[⟨.cacheSet key text ttl, some (.error cacheDown)⟩], ?_⟩
      simp [hold, DecisionCache.write, Dialogue.run_bind, Dialogue.query, Dialogue.run,
        Dialogue.run_pure, Course.andThen, collaborators, written, hspan, hfault]
    · refine ⟨[⟨.cacheSet key text ttl, some (.ok ())⟩], ?_⟩
      simp [hold, DecisionCache.write, Dialogue.run_bind, Dialogue.query, Dialogue.run,
        Dialogue.run_pure, Course.andThen, collaborators, written, hspan, hfault]

theorem sameWorld_written (d : Deployment) (key text : String) (ttl : Nat) :
    SameWorld d (d.written key text ttl) := by
  unfold written
  split
  · exact SameWorld.refl d
  · exact ⟨rfl, rfl, rfl, rfl, fun _ => rfl, rfl, rfl, Nat.le_refl _, rfl⟩

theorem elapsed_written (d : Deployment) (key text : String) (ttl : Nat) :
    (d.written key text ttl).elapsed = d.elapsed := by
  unfold written
  split <;> rfl

theorem mem_written {d : Deployment} {key text : String} {ttl : Nat} {e : CacheEntry}
    (h : e ∈ (d.written key text ttl).cache.entries) :
    e = ⟨key, text, d.elapsed + ttl⟩ ∨ e ∈ d.cache.entries := by
  unfold written at h
  split at h
  · exact .inr h
  · exact LruCache.mem_insert h

/-- Whether the cache keeps what is written under a key and gives it back in
time. -/
structure CacheServes (d : Deployment) (key : String) : Prop where
  reads : (d.cacheFaults key).get = false
  writes : (d.cacheFaults key).set = false
  prompt : (d.cacheFaults key).delay ≤ d.config.cacheBudget
  room : 0 < d.cache.capacity

/-- Whether a read finds an entry: it is the only one of its key, alive when it
is looked at, and its key is read within a budget. -/
structure Serves (d : Deployment) (budget : Nat) (x : CacheEntry) : Prop where
  reads : (d.cacheFaults x.key).get = false
  prompt : (d.cacheFaults x.key).delay ≤ budget
  there : x ∈ d.cache.entries
  sole : d.cache.Sole x.key
  live : d.elapsed + (d.cacheFaults x.key).delay < x.expiresAt

/-- An entry that is served is read. -/
theorem readable?_of_serves {d : Deployment} {budget : Nat} {x : CacheEntry}
    (h : d.Serves budget x) : d.readable? budget x.key = some x.value := by
  have hprompt : ¬ ((d.cacheFaults x.key).get || budget < (d.cacheFaults x.key).delay) = true := by
    rw [h.reads, Bool.false_or, decide_eq_true_eq]
    exact Nat.not_lt.mpr h.prompt
  rw [readable?, if_neg hprompt]
  exact LruCache.get_of_sole h.sole h.there h.live

/-- What is written for some span is the only entry of its key. -/
theorem sole_written {d : Deployment} {key : String} (hset : (d.cacheFaults key).set = false)
    {ttl : Nat} (hspan : ttl ≠ 0) (text : String) :
    (d.written key text ttl).cache.Sole key ∧
      (0 < d.cache.capacity → ⟨key, text, d.elapsed + ttl⟩ ∈ (d.written key text ttl).cache.entries) := by
  have hwritten : (d.written key text ttl).cache = d.cache.insert d.elapsed key text ttl := by
    have hworks : ¬ (ttl = 0 ∨ (d.cacheFaults key).set = true) := by
      rw [hset]
      simp only [Bool.false_eq_true, or_false]
      exact hspan
    rw [written, if_neg hworks]
  rw [hwritten]
  exact ⟨d.cache.sole_insert_self _ _ _ _, fun hroom => LruCache.mem_insert_self hroom _ _ _ _⟩

/-! ## Evictions -/

/-- Where deletions are in order, an eviction removes and counts what matches its text. -/
theorem hold_evictAllUnder {d : Deployment} {start : String}
    (horder : (d.cacheFaults start).delete = false) :
    d.hold (DecisionCache.evictAllUnder start) = ⟨some (d.cache.erasePattern start).1,
      [⟨.cacheDeleteAll start, some (.ok (d.cache.erasePattern start).1)⟩],
      { d with cache := (d.cache.erasePattern start).2 }⟩ := by
  have hquery : d.hold (Dialogue.query (.cacheDeleteAll start)) =
      ⟨some (.ok (d.cache.erasePattern start).1),
        [⟨.cacheDeleteAll start, some (.ok (d.cache.erasePattern start).1)⟩],
        { d with cache := (d.cache.erasePattern start).2 }⟩ := by
    simp [hold, Dialogue.query, Dialogue.run, collaborators, horder]
  rw [DecisionCache.evictAllUnder, hold_bind hquery]
  rfl

/-- The eviction of everything takes out the keys that begin like the engine's and
counts them. -/
theorem hold_evictAll {d : Deployment} (horder : CacheFaults.canEvictAll d.cacheFaults = true) :
    (d.hold DecisionCache.evictAll).result = some (d.cache.countOf Key.isEngineKey) ∧
      (d.hold DecisionCache.evictAll).state =
        { d with cache := d.cache.without Key.isEngineKey } := by
  simp only [CacheFaults.canEvictAll, Bool.and_eq_true, Bool.not_eq_true'] at horder
  have hverdicts := hold_evictAllUnder horder.1
  rw [LruCache.erasePattern_eq] at hverdicts
  have hlists := @hold_evictAllUnder
    { d with cache := d.cache.without (LruCache.matchesPattern Key.decisions) } Key.candidateLists
    horder.2
  rw [LruCache.erasePattern_eq, LruCache.without_without] at hlists
  rw [DecisionCache.evictAll, hold_bind hverdicts, hold_bind hlists]
  constructor
  · exact congrArg some (d.cache.countOf_without _ _)
  · rfl

/-! ## Queries of the store -/

def storeInOrder (d : Deployment) : Prop :=
  d.globalFault = .none ∧ d.tenantFault = .none

theorem SameWorld.storeInOrder {d after : Deployment} (h : SameWorld d after)
    (horder : d.storeInOrder) : after.storeInOrder := by
  rw [Deployment.storeInOrder, h.globalFault, h.tenantFault]
  exact horder

theorem find_inOrder (d : Deployment) (query : Backend → List Policy × Backend) :
    d.find .none query =
      (some ⟨.ok (query d.backend).1, 0⟩, { d with backend := (query d.backend).2 }) := rfl

/-- A query that is answered in good time finds what is stored. -/
theorem find_cases (d : Deployment) (fault : StoreFault)
    (query : Backend → List Policy × Backend)
    (hquery : (query d.backend).2.uncounted = d.backend.uncounted) :
    SameWorld d (d.find fault query).2 ∧ (d.find fault query).2.cache = d.cache ∧
      ∀ answer found, (d.find fault query).1 = some answer → answer.outcome = .ok found →
        found = (query d.backend).1 := by
  unfold find
  by_cases hcrash : fault.crashes = true
  · simp only [hcrash, if_true]
    exact ⟨⟨rfl, rfl, rfl, rfl, fun _ => rfl, rfl, rfl, Nat.le_add_right _ _, rfl⟩, rfl,
      fun _ _ h => by cases h⟩
  · simp only [hcrash]
    cases herror : fault.error with
    | some e =>
        refine ⟨⟨rfl, rfl, rfl, rfl, fun _ => rfl, rfl, rfl, Nat.le_add_right _ _, rfl⟩, rfl, ?_⟩
        intro answer found hanswer hok
        cases hanswer
        cases hok
    | none =>
        refine ⟨⟨rfl, rfl, rfl, rfl, fun _ => rfl, rfl, hquery, Nat.le_add_right _ _, rfl⟩, rfl, ?_⟩
        intro answer found hanswer hok
        cases hanswer
        cases hok
        rfl

theorem hold_findGlobal (d : Deployment) (now : Instant) :
    d.hold (Dialogue.query (.findGlobal now)) =
      ⟨(d.find d.globalFault Backend.findGlobal).1,
        [⟨.findGlobal now, (d.find d.globalFault Backend.findGlobal).1⟩],
        (d.find d.globalFault Backend.findGlobal).2⟩ := by
  simp only [hold, Dialogue.query, Dialogue.run, collaborators]
  cases d.find d.globalFault Backend.findGlobal with
  | mk answer after =>
    cases answer with
    | none => rfl
    | some answer => rfl

theorem hold_findActive (d : Deployment) (tenant : String) (now : Instant) :
    d.hold (Dialogue.query (.findActive tenant now)) =
      ⟨(d.find d.tenantFault (Backend.findActive tenant)).1,
        [⟨.findActive tenant now, (d.find d.tenantFault (Backend.findActive tenant)).1⟩],
        (d.find d.tenantFault (Backend.findActive tenant)).2⟩ := by
  simp only [hold, Dialogue.query, Dialogue.run, collaborators]
  cases d.find d.tenantFault (Backend.findActive tenant) with
  | mk answer after =>
    cases answer with
    | none => rfl
    | some answer => rfl

theorem judge_ok {budget : Nat} {answer : Timed (Except StoreError (List Policy))}
    {found : List Policy} (h : Engine.judge budget answer = .ok found) :
    answer.outcome = .ok found := by
  unfold Engine.judge at h
  split at h
  · cases h
  · rename_i policies heq
    split at h
    · cases h
    · cases h
      exact heq

/-- A judged query changes nothing that counts, and where it comes to policies they are
those that are stored, and what the query answered. -/
theorem hold_judged {d : Deployment} {x : Dialogue (Timed (Except StoreError (List Policy)))}
    {fault : StoreFault} {query : Backend → List Policy × Backend} {transcript : List Exchange}
    {scope : Option String} {now : Instant} (budget : Nat)
    (hx : d.hold x = ⟨(d.find fault query).1, transcript, (d.find fault query).2⟩)
    (huncounted : (query d.backend).2.uncounted = d.backend.uncounted)
    (hquery : ∀ answer found, (d.find fault query).1 = some answer → answer.outcome = .ok found →
      (scope, now, found) ∈ queries transcript) :
    let course := d.hold (do return Engine.judge budget (← x))
    SameWorld d course.state ∧ course.state.cache = d.cache ∧
      ∀ found, course.result = some (.ok found) →
        found = (query d.backend).1 ∧ (scope, now, found) ∈ queries course.transcript := by
  intro course
  obtain ⟨hworld, hcache, hfound⟩ := find_cases d fault query huncounted
  cases hanswer : (d.find fault query).1 with
  | none =>
      rw [hanswer] at hx
      have hcourse : course = ⟨none, transcript, (d.find fault query).2⟩ := hold_bind_none hx _
      rw [hcourse]
      exact ⟨hworld, hcache, fun _ h => by cases h⟩
  | some answer =>
      rw [hanswer] at hx
      have hcourse : course =
          ⟨some (Engine.judge budget answer), transcript ++ [], (d.find fault query).2⟩ :=
        hold_bind hx _
      rw [hcourse]
      refine ⟨hworld, hcache, ?_⟩
      intro found h
      have hok := judge_ok (Option.some.inj h)
      rw [List.append_nil]
      exact ⟨hfound answer found hanswer hok, hquery answer found hanswer hok⟩

theorem hold_judgedGlobal (d : Deployment) (budget : Nat) (now : Instant) :
    let course := d.hold (do return Engine.judge budget (← Dialogue.query (.findGlobal now)))
    SameWorld d course.state ∧ course.state.cache = d.cache ∧
      ∀ found, course.result = some (.ok found) →
        found = d.backend.findGlobal.1 ∧ (none, now, found) ∈ queries course.transcript := by
  refine hold_judged budget (d.hold_findGlobal now) d.backend.uncounted_findGlobal ?_
  intro answer found hanswer hok
  rw [hanswer]
  exact List.mem_filterMap.mpr
    ⟨_, List.mem_singleton_self _, Exchange.query?_findGlobal now hok⟩

theorem hold_judgedActive (d : Deployment) (budget : Nat) (tenant : String) (now : Instant) :
    let course := d.hold (do return Engine.judge budget (← Dialogue.query (.findActive tenant now)))
    SameWorld d course.state ∧ course.state.cache = d.cache ∧
      ∀ found, course.result = some (.ok found) →
        found = (d.backend.findActive tenant).1 ∧
          (some tenant, now, found) ∈ queries course.transcript := by
  refine hold_judged budget (d.hold_findActive tenant now)
    (d.backend.uncounted_findActive tenant) ?_
  intro answer found hanswer hok
  rw [hanswer]
  exact List.mem_filterMap.mpr
    ⟨_, List.mem_singleton_self _, Exchange.query?_findActive tenant now hok⟩

/-- The policies of a tenant come behind those found before. -/
theorem hold_behind (d : Deployment) (c : Config) (name : String) (now : Instant)
    (globals : List Policy) :
    let course := d.hold
      ((do return Engine.judge c.storeBudget (← Dialogue.query (.findActive name now))) >>=
        fun own => return own.map (globals ++ ·))
    SameWorld d course.state ∧ course.state.cache = d.cache ∧
      ∀ found, course.result = some (.ok found) →
        ∃ own, own = (d.backend.findActive name).1 ∧
          (some name, now, own) ∈ queries course.transcript ∧ found = globals ++ own := by
  obtain ⟨hworld, hcache, hfound⟩ := d.hold_judgedActive c.storeBudget name now
  cases hasked : d.hold (do
      return Engine.judge c.storeBudget (← Dialogue.query (.findActive name now))) with
  | mk result transcript after =>
    rw [hasked] at hworld hcache hfound
    cases result with
    | none =>
        rw [hold_bind_none hasked]
        exact ⟨hworld, hcache, fun _ h => by cases h⟩
    | some outcome =>
        rw [hold_bind hasked]
        refine ⟨hworld, hcache, ?_⟩
        intro found h
        cases outcome with
        | error e => cases h
        | ok own =>
            cases h
            obtain ⟨hown, hquery⟩ := hfound own rfl
            exact ⟨own, hown, queries_mono (fun _ => List.mem_append_left _) _ hquery, rfl⟩

/-- Asking the store changes nothing that counts, and what it comes to is what the queries
found. -/
theorem hold_queryStore (d : Deployment) (c : Config) (tenant : Option String) (now : Instant) :
    SameWorld d (d.hold (Engine.queryStore c tenant now)).state ∧
      (d.hold (Engine.queryStore c tenant now)).state.cache = d.cache ∧
      ∀ found, (d.hold (Engine.queryStore c tenant now)).result = some (.ok found) →
        found = d.backend.found tenant ∧
          Queried (d.hold (Engine.queryStore c tenant now)).transcript tenant now found := by
  obtain ⟨hworld, hcache, hfound⟩ := d.hold_judgedGlobal c.storeBudget now
  rw [queryStore_eq]
  cases hasked : d.hold (do
      return Engine.judge c.storeBudget (← Dialogue.query (.findGlobal now))) with
  | mk result front after =>
    rw [hasked] at hworld hcache hfound
    cases result with
    | none =>
        rw [hold_bind_none hasked]
        exact ⟨hworld, hcache, fun _ h => by cases h⟩
    | some outcome =>
        rw [hold_bind hasked]
        cases outcome with
        | error e => exact ⟨hworld, hcache, fun _ h => by cases h⟩
        | ok globals =>
            obtain ⟨hglobals, hglobal⟩ := hfound globals rfl
            have hglobal' : ∀ back, (none, now, globals) ∈ queries (front ++ back) :=
              fun back => queries_mono (fun _ => List.mem_append_left back) _ hglobal
            cases tenant with
            | none =>
                refine ⟨hworld, hcache, ?_⟩
                rintro found ⟨⟩
                exact ⟨hglobals.trans (List.append_nil _).symm, globals, hglobal' _, rfl⟩
            | some name =>
                obtain ⟨hworld', hcache', hfound'⟩ := after.hold_behind c name now globals
                refine ⟨hworld.trans hworld', hcache'.trans hcache, ?_⟩
                intro found h
                obtain ⟨own, hown, hquery, rfl⟩ := hfound' found h
                rw [← Backend.findActive_uncounted, hworld.backend,
                  Backend.findActive_uncounted] at hown
                refine ⟨by rw [hglobals, hown]; rfl, globals, hglobal' _, own, ?_, rfl⟩
                exact queries_mono (fun _ => List.mem_append_right _) _ hquery

theorem judge_prompt (budget : Nat) (found : List Policy) :
    Engine.judge budget ⟨.ok found, 0⟩ = .ok found := by
  rw [Engine.judge]
  exact if_neg (Nat.not_lt_zero _)

/-- A store in order answers with all that it has for a scope. -/
theorem result_queryStore_inOrder {d : Deployment} (horder : d.storeInOrder) (c : Config)
    (tenant : Option String) (now : Instant) :
    (d.hold (Engine.queryStore c tenant now)).result = some (.ok (d.backend.found tenant)) := by
  obtain ⟨hglobal, htenant⟩ := horder
  have hfirst := hold_findGlobal d now
  rw [hglobal, find_inOrder, hold] at hfirst
  obtain ⟨after, hafter⟩ : ∃ after : Deployment,
      after = { d with backend := d.backend.findGlobal.2 } := ⟨_, rfl⟩
  rw [← hafter] at hfirst
  rw [hold, Engine.queryStore, Dialogue.run_bind, hfirst]
  generalize c.storeBudget = budget
  cases tenant with
  | none =>
      simp [Course.andThen, judge_prompt, Dialogue.run_pure, Backend.found]
  | some t =>
      have hfault : after.tenantFault = .none := by rw [hafter]; exact htenant
      have hsecond := hold_findActive after t now
      rw [hfault, find_inOrder, hold] at hsecond
      have hown : (after.backend.findActive t).1 = (d.backend.findActive t).1 := by
        rw [hafter, ← Backend.findActive_uncounted, Backend.uncounted_findGlobal,
          Backend.findActive_uncounted]
      simp [Course.andThen, judge_prompt, Dialogue.run_bind, Dialogue.run_pure, hsecond,
        Backend.found, hown, Except.map]

end Deployment

end DecisionPoint
