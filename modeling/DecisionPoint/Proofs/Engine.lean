import DecisionPoint.Proofs.Course

/-!
What an evaluation comes to with collaborators in memory. There are four ways:
the verdict is served from the cache, or it is computed from candidates that
the cache or the store gave, or there is none because the store failed. Each
way says what the cache may hold afterwards.
-/

namespace DecisionPoint

open Time (Instant)

namespace Deployment

/-! ## What is kept -/

def kept? (d : Deployment) (r : Request) : Option Verdict :=
  (d.hold (DecisionCache.getDecision d.config r)).result.join

def asked (d : Deployment) (r : Request) : Deployment :=
  (d.hold (DecisionCache.getDecision d.config r)).state

def keptList? (d : Deployment) (tenant : Option String) : Option (List Policy) :=
  (d.hold (Engine.keptCandidates d.config tenant)).result.join

theorem hold_getDecision (d : Deployment) (c : Config) (r : Request) :
    d.hold (DecisionCache.getDecision c r) =
      ⟨some ((d.readable? c.cacheBudget (Key.decision r)).bind Verdict.ofText?),
        [⟨.cacheGet (Key.decision r), some (d.cacheGet (Key.decision r)).1⟩],
        d.looked (Key.decision r)⟩ := by
  have hread := d.hold_readText c.cacheBudget (Key.decision r)
  rw [hold] at hread
  rw [hold, DecisionCache.getDecision, Dialogue.run_bind, hread]
  rfl

theorem hold_getCandidates (d : Deployment) (c : Config) (tenant : Option String) :
    d.hold (DecisionCache.getCandidates c tenant) =
      ⟨some ((d.readable? c.cacheBudget (Key.candidates tenant)).bind Policy.listOfText?),
        [⟨.cacheGet (Key.candidates tenant), some (d.cacheGet (Key.candidates tenant)).1⟩],
        d.looked (Key.candidates tenant)⟩ := by
  have hread := d.hold_readText c.cacheBudget (Key.candidates tenant)
  rw [hold] at hread
  rw [hold, DecisionCache.getCandidates, Dialogue.run_bind, hread]
  rfl

theorem asked_eq (d : Deployment) (r : Request) : d.asked r = d.looked (Key.decision r) := by
  rw [asked, hold_getDecision]

theorem kept?_eq (d : Deployment) (r : Request) :
    d.kept? r = (d.readable? d.config.cacheBudget (Key.decision r)).bind Verdict.ofText? := by
  rw [kept?, hold_getDecision, Option.join_some]

/-- A served verdict is read from a live entry of its key. -/
theorem live_of_kept? {d : Deployment} {r : Request} {v : Verdict} (h : d.kept? r = some v) :
    ∃ e ∈ d.cache.entries, e.key = Key.decision r ∧ d.elapsed < e.expiresAt ∧
      Verdict.ofText? e.value = some v := by
  rw [kept?_eq, Option.bind_eq_some_iff] at h
  obtain ⟨text, htext, hv⟩ := h
  obtain ⟨e, hmem, hkey, rfl, hlive⟩ := live_of_readable? htext
  exact ⟨e, hmem, hkey, hlive, hv⟩

/-- Asking for kept candidates writes nothing, and what it gives was decoded from a live
entry. -/
theorem hold_keptCandidates (d : Deployment) (c : Config) (tenant : Option String) :
    (d.hold (Engine.keptCandidates c tenant)).result.isSome = true ∧
      SameWorld d (d.hold (Engine.keptCandidates c tenant)).state ∧
      (∀ e ∈ (d.hold (Engine.keptCandidates c tenant)).state.cache.entries,
        e ∈ d.cache.entries) ∧
      ∀ ps, (d.hold (Engine.keptCandidates c tenant)).result.join = some ps →
        ∃ e ∈ d.cache.entries, e.key = Key.candidates tenant ∧ d.elapsed < e.expiresAt ∧
          Policy.listOfText? e.value = some ps := by
  unfold Engine.keptCandidates
  by_cases hswitch : c.cacheCandidates = true
  · rw [if_pos hswitch, hold_getCandidates]
    refine ⟨rfl, d.sameWorld_looked _, fun _ => mem_of_mem_looked, ?_⟩
    intro ps h
    rw [Option.join_some, Option.bind_eq_some_iff] at h
    obtain ⟨text, htext, hps⟩ := h
    obtain ⟨e, hmem, hkey, rfl, hlive⟩ := live_of_readable? htext
    exact ⟨e, hmem, hkey, hlive, hps⟩
  · rw [if_neg hswitch]
    exact ⟨rfl, SameWorld.refl d, fun _ h => h, fun _ h => by cases h⟩

/-! ## The candidates -/

def candidateEntry (c : Config) (tenant : Option String) (policies : List Policy) (now : Instant)
    (elapsed : Nat) : CacheEntry :=
  ⟨Key.candidates tenant, Policy.listToText policies,
    elapsed + DecisionCache.candidateTtl c (Engine.candidateCap policies now)⟩

inductive Loading (d : Deployment) (c : Config) (tenant : Option String) (now : Instant)
    (course : Course (Except EngineError (List Policy)) Deployment) : Prop
  | kept (policies : List Policy) (hresult : course.result = some (.ok policies))
      (hlive : ∃ e ∈ d.cache.entries, e.key = Key.candidates tenant ∧ d.elapsed < e.expiresAt ∧
        Policy.listOfText? e.value = some policies)
      (hentries : ∀ e ∈ course.state.cache.entries, e ∈ d.cache.entries)
  | queried (hresult : course.result = some (.ok (Policy.distinct (d.backend.found tenant))))
      (hqueried : Queried course.transcript tenant now (d.backend.found tenant))
      (hentries : ∀ e ∈ course.state.cache.entries, e ∈ d.cache.entries ∨
        e = candidateEntry c tenant (Policy.distinct (d.backend.found tenant)) now
          course.state.elapsed)
  | failed (hresult : ∀ policies, course.result ≠ some (.ok policies))
      (horder : ¬ d.storeInOrder)
      (hentries : ∀ e ∈ course.state.cache.entries, e ∈ d.cache.entries)

/-- What the store found is kept where keeping candidates is switched on. -/
theorem hold_keeping (d : Deployment) (c : Config) (tenant : Option String)
    (policies : List Policy) (now : Instant) :
    ∃ transcript after, d.hold (do
        if c.cacheCandidates then
          DecisionCache.putCandidates c tenant policies (Engine.candidateCap policies now)
        return (.ok policies : Except EngineError (List Policy))) =
      ⟨some (.ok policies), transcript, after⟩ ∧ SameWorld d after ∧
        ∀ e ∈ after.cache.entries, e ∈ d.cache.entries ∨
          e = candidateEntry c tenant policies now after.elapsed := by
  unfold DecisionCache.putCandidates candidateEntry
  generalize DecisionCache.candidateTtl c (Engine.candidateCap policies now) = ttl
  by_cases hswitch : c.cacheCandidates = true
  · obtain ⟨written, hwrite⟩ :=
      d.hold_write (Key.candidates tenant) (Policy.listToText policies) ttl
    simp only [hswitch, if_true, hold_bind hwrite]
    refine ⟨_, _, rfl, d.sameWorld_written _ _ _, ?_⟩
    intro e he
    change e ∈ d.cache.entries ∨ e = ⟨_, _, (d.written _ _ ttl).elapsed + ttl⟩
    rw [elapsed_written]
    exact (mem_written he).symm
  · simp only [hswitch]
    exact ⟨[], d, rfl, SameWorld.refl d, fun _ h => .inl h⟩

/-- Loading candidates changes nothing but the cache, and takes one of the ways that
`Loading` lists. -/
theorem hold_candidates (d : Deployment) (c : Config) (tenant : Option String) (now : Instant) :
    SameWorld d (d.hold (Engine.candidates c tenant now)).state ∧
      Loading d c tenant now (d.hold (Engine.candidates c tenant now)) := by
  obtain ⟨hsome, hworld, hsub, hlive⟩ := d.hold_keptCandidates c tenant
  rw [hold] at *
  rw [Engine.candidates, Dialogue.run_bind]
  generalize (Engine.keptCandidates c tenant).run collaborators d = read at *
  obtain ⟨result, transcript, after⟩ := read
  cases result with
  | none => cases hsome
  | some keptList =>
    cases keptList with
    | some policies =>
        exact ⟨hworld, .kept policies rfl (hlive policies rfl) hsub⟩
    | none =>
        obtain ⟨hworld', hcache, hfound⟩ := after.hold_queryStore c tenant now
        have horder : d.storeInOrder →
            (after.hold (Engine.queryStore c tenant now)).result =
              some (.ok (after.backend.found tenant)) :=
          fun h => result_queryStore_inOrder (hworld.storeInOrder h) c tenant now
        rw [hold] at hworld' hcache hfound horder
        simp only [Course.andThen, Dialogue.run_bind]
        generalize (Engine.queryStore c tenant now).run collaborators after = query at *
        obtain ⟨result, asked, stored⟩ := query
        have hsame : ∀ e ∈ stored.cache.entries, e ∈ d.cache.entries := by
          intro e he
          rw [hcache] at he
          exact hsub e he
        cases result with
        | none =>
            refine ⟨hworld.trans hworld', .failed (fun _ h => by cases h) ?_ hsame⟩
            intro h
            cases horder h
        | some outcome =>
          cases outcome with
          | error e =>
              refine ⟨hworld.trans hworld', .failed (fun _ h => by cases h) ?_ hsame⟩
              intro h
              cases horder h
          | ok found =>
              obtain ⟨hlist, hqueried⟩ := hfound found rfl
              rw [hworld.found] at hlist
              obtain ⟨rest, final, hrest, hworld'', hentries⟩ :=
                stored.hold_keeping c tenant (Policy.distinct found) now
              rw [hold] at hrest
              simp only [hrest]
              subst hlist
              refine ⟨hworld.trans (hworld'.trans hworld''), .queried rfl ?_ ?_⟩
              · apply hqueried.mono
                intro x hx
                exact List.mem_append_right _ (List.mem_append_left _ hx)
              · intro e he
                exact (hentries e he).imp (hsame e) id

/-! ## The evaluation -/

def ticked (d : Deployment) : Deployment :=
  { d with clock := d.clock.advance d.tick }

theorem sameWorld_ticked (d : Deployment) : SameWorld d d.ticked where
  config := rfl
  cacheFaults := rfl
  globalFault := rfl
  tenantFault := rfl
  clock := by
    intro htick
    rw [ticked, htick, Instant.advance_zero]
  tick := rfl
  backend := rfl
  elapsed := Nat.le_refl _
  capacity := rfl

/-- Asking the cache for a verdict and reading the clock brings in no entry. -/
theorem asked_ticked (d : Deployment) (r : Request) :
    SameWorld d (d.asked r).ticked ∧
      ∀ e ∈ (d.asked r).ticked.cache.entries, e ∈ d.cache.entries := by
  rw [asked_eq]
  exact ⟨(d.sameWorld_looked _).trans (d.looked _).sameWorld_ticked, fun _ => mem_of_mem_looked⟩

/-- The candidates that a request is decided from where no verdict is served. -/
def loaded? (d : Deployment) (r : Request) : Option (Except EngineError (List Policy)) :=
  ((d.asked r).ticked.hold (Engine.candidates d.config r.tenant d.clock)).result

/-- What is kept for a scope is what a request is decided from. -/
theorem loaded_of_keptList? {d : Deployment} {r : Request} {policies : List Policy}
    (h : (d.asked r).ticked.keptList? r.tenant = some policies) :
    d.loaded? r = some (.ok policies) := by
  have hconfig : (d.asked r).ticked.config = d.config := (d.asked_ticked r).1.config
  rw [keptList?, hconfig] at h
  rw [loaded?, Engine.candidates]
  cases hread : (d.asked r).ticked.hold (Engine.keptCandidates d.config r.tenant) with
  | mk result transcript after =>
      rw [hread] at h
      cases result with
      | none => cases h
      | some keptList =>
          cases h
          rw [hold_bind hread]
          rfl

def decisionEntry (c : Config) (r : Request) (v : Verdict) (elapsed : Nat) : CacheEntry :=
  ⟨Key.decision r, v.toText, elapsed + Time.ofMinutes (DecisionCache.lifetime c v).toNat⟩

inductive Source (d : Deployment) (tenant : Option String) (now : Instant)
    (transcript : List Exchange) (policies : List Policy) : Prop
  | cache (hlive : ∃ e ∈ d.cache.entries, e.key = Key.candidates tenant ∧
      d.elapsed < e.expiresAt ∧ Policy.listOfText? e.value = some policies)
  | store (hlist : policies = Policy.distinct (d.backend.found tenant))
      (hqueried : Queried transcript tenant now (d.backend.found tenant))

/-- A verdict is the last that was written into the cache. -/
def KeptLast (d : Deployment) (r : Request) (v : Verdict) (after : Deployment) : Prop :=
  ∃ stored, SameWorld d stored ∧ after.elapsed = stored.elapsed ∧
    after.cache = (stored.written (Key.decision r) v.toText
      (Time.ofMinutes (DecisionCache.lifetime d.config v).toNat)).cache

inductive Evaluation (d : Deployment) (r : Request)
    (course : Course (Except EngineError Verdict) Deployment) : Prop
  | served (v : Verdict) (hkept : d.kept? r = some v) (hresult : course.result = some (.ok v))
      (hentries : ∀ e ∈ course.state.cache.entries, e ∈ d.cache.entries)
  | computed (policies : List Policy) (hkept : d.kept? r = none)
      (hloaded : d.loaded? r = some (.ok policies))
      (hsource : Source d r.tenant d.clock course.transcript policies)
      (hresult : course.result = some (.ok (rule d.config r policies d.clock).verdict))
      (hcache : KeptLast d r (rule d.config r policies d.clock).verdict course.state)
      (hentries : ∀ e ∈ course.state.cache.entries, e ∈ d.cache.entries ∨
        e = decisionEntry d.config r (rule d.config r policies d.clock).verdict
          course.state.elapsed ∨
        (e = candidateEntry d.config r.tenant policies d.clock course.state.elapsed ∧
          policies = Policy.distinct (d.backend.found r.tenant) ∧
          Queried course.transcript r.tenant d.clock (d.backend.found r.tenant)))
  | failed (hkept : d.kept? r = none) (hresult : ∀ v, course.result ≠ some (.ok v))
      (horder : ¬ d.storeInOrder)
      (hentries : ∀ e ∈ course.state.cache.entries, e ∈ d.cache.entries)

/-- Dispatching actions leaves the cache and its time alone. -/
theorem hold_dispatchActions (d : Deployment) (ruling : Ruling) (r : Request) :
    ∃ transcript after, d.hold (Engine.dispatchActions ruling r) =
      ⟨some (), transcript, after⟩ ∧ SameWorld d after ∧ after.cache = d.cache ∧
        after.elapsed = d.elapsed := by
  unfold Engine.dispatchActions
  cases ruling.winner with
  | none => exact ⟨[], d, rfl, SameWorld.refl d, rfl, rfl⟩
  | some p =>
      by_cases hempty : p.actionList.isEmpty = true
      · simp only [hempty]
        exact ⟨[], d, rfl, SameWorld.refl d, rfl, rfl⟩
      · simp only [hempty]
        exact ⟨_, _, rfl, ⟨rfl, rfl, rfl, rfl, fun _ => rfl, rfl, rfl, Nat.le_refl _, rfl⟩, rfl, rfl⟩

/-- The verdict is kept and its actions are dispatched. -/
theorem hold_conclusion (d : Deployment) (c : Config) (r : Request) (ruling : Ruling) :
    ∃ transcript after, d.hold (do
        DecisionCache.putDecision c r ruling.verdict
        Engine.dispatchActions ruling r
        return (.ok ruling.verdict : Except EngineError Verdict)) =
      ⟨some (.ok ruling.verdict), transcript, after⟩ ∧ SameWorld d after ∧
        after.elapsed = d.elapsed ∧
        after.cache = (d.written (Key.decision r) ruling.verdict.toText
          (Time.ofMinutes (DecisionCache.lifetime c ruling.verdict).toNat)).cache ∧
        ∀ e ∈ after.cache.entries, e ∈ d.cache.entries ∨
          e = decisionEntry c r ruling.verdict after.elapsed := by
  unfold DecisionCache.putDecision decisionEntry
  generalize Time.ofMinutes (DecisionCache.lifetime c ruling.verdict).toNat = ttl
  obtain ⟨written, hwrite⟩ := d.hold_write (Key.decision r) ruling.verdict.toText ttl
  obtain ⟨dispatched, after, hdispatch, hworld, hcache, helapsed⟩ :=
    (d.written (Key.decision r) ruling.verdict.toText ttl).hold_dispatchActions ruling r
  rw [hold_bind hwrite, hold_bind hdispatch]
  refine ⟨_, after, rfl, (d.sameWorld_written _ _ _).trans hworld, ?_, hcache, ?_⟩
  · rw [helapsed, elapsed_written]
  intro e he
  rw [hcache] at he
  rw [helapsed, elapsed_written]
  exact (mem_written he).symm

theorem hold_now (d : Deployment) :
    d.hold (Dialogue.query .now) = ⟨some d.clock, [⟨.now, some d.clock⟩], d.ticked⟩ :=
  rfl

/-- What is decided anew once the verdict on a request was asked for in vain. -/
theorem hold_evaluateAnew (d : Deployment) {r : Request} (hkept : d.kept? r = none)
    (asked : List Exchange) :
    SameWorld d ((d.asked r).hold (Engine.evaluateAnew d.config r)).state ∧
      Evaluation d r
        { (d.asked r).hold (Engine.evaluateAnew d.config r) with
          transcript := asked ++ ((d.asked r).hold (Engine.evaluateAnew d.config r)).transcript } := by
  obtain ⟨hticked, hsub⟩ := d.asked_ticked r
  have hclock : (d.asked r).clock = d.clock := by
    rw [asked_eq]
    exact d.clock_looked _
  obtain ⟨hworld, hloading⟩ := (d.asked r).ticked.hold_candidates d.config r.tenant d.clock
  have hloaded : d.loaded? r =
      ((d.asked r).ticked.hold (Engine.candidates d.config r.tenant d.clock)).result := rfl
  rw [Engine.evaluateAnew, hold_bind (d.asked r).hold_now, hclock]
  cases hload : (d.asked r).ticked.hold (Engine.candidates d.config r.tenant d.clock) with
  | mk result transcript stored =>
    rw [hload] at hworld hloading hloaded
    cases hloading with
    | failed hresult horder hentries =>
        have hunanswered : ¬ d.storeInOrder := fun h => horder (hticked.storeInOrder h)
        have hkeeps : ∀ e ∈ stored.cache.entries, e ∈ d.cache.entries :=
          fun e he => hsub e (hentries e he)
        cases result with
        | none =>
            rw [hold_bind_none hload]
            exact ⟨hticked.trans hworld, .failed hkept (fun _ h => by cases h) hunanswered hkeeps⟩
        | some outcome =>
          cases outcome with
          | error e =>
              rw [hold_bind hload]
              exact ⟨hticked.trans hworld,
                .failed hkept (fun _ h => by cases h) hunanswered hkeeps⟩
          | ok policies => exact absurd rfl (hresult policies)
    | kept policies hresult hlive hentries =>
        cases hresult
        rw [hold_bind hload]
        obtain ⟨concluded, final, hfinal, hworld', helapsed, hcache, hentries'⟩ :=
          stored.hold_conclusion d.config r (rule d.config r policies d.clock)
        rw [hfinal]
        refine ⟨hticked.trans (hworld.trans hworld'),
          .computed policies hkept hloaded (.cache ?_) rfl
            ⟨stored, hticked.trans hworld, helapsed, hcache⟩ ?_⟩
        · obtain ⟨e, hmem, hkey, hexpires, htext⟩ := hlive
          exact ⟨e, hsub e hmem, hkey, Nat.lt_of_le_of_lt hticked.elapsed hexpires, htext⟩
        · intro e he
          rcases hentries' e he with hold | hnew
          · exact .inl (hsub e (hentries e hold))
          · exact .inr (.inl hnew)
    | queried hresult hqueried hentries =>
        cases hresult
        rw [hold_bind hload]
        rw [hticked.found] at hqueried hentries hload hloaded ⊢
        generalize hpolicies : Policy.distinct (d.backend.found r.tenant) = policies at *
        obtain ⟨concluded, final, hfinal, hworld', helapsed, hcache, hentries'⟩ :=
          stored.hold_conclusion d.config r (rule d.config r policies d.clock)
        rw [hfinal]
        have hwhole : Queried (asked ++ ([⟨.now, some d.clock⟩] ++ (transcript ++ concluded)))
            r.tenant d.clock (d.backend.found r.tenant) := by
          apply hqueried.mono
          intro x hx
          exact List.mem_append_right _ (List.mem_append_right _ (List.mem_append_left _ hx))
        refine ⟨hticked.trans (hworld.trans hworld'),
          .computed policies hkept hloaded (.store hpolicies.symm hwhole) rfl
            ⟨stored, hticked.trans hworld, helapsed, hcache⟩ ?_⟩
        intro e he
        rcases hentries' e he with hold | hnew
        · rcases hentries e hold with hold | hnew
          · exact .inl (hsub e hold)
          · refine .inr (.inr ⟨?_, hpolicies.symm, hwhole⟩)
            change e = candidateEntry d.config r.tenant policies d.clock final.elapsed
            rw [helapsed]
            exact hnew
        · exact .inr (.inl hnew)

def evaluation (d : Deployment) (r : Request) : Course (Except EngineError Verdict) Deployment :=
  d.hold (Engine.evaluate d.config r)

/-- What is kept for a request is what answers it, and nothing else is asked. -/
theorem evaluation_of_kept? {d : Deployment} {r : Request} (hfit : r.defect? = none) {v : Verdict}
    (h : d.kept? r = some v) :
    d.evaluation r = ⟨some (.ok v),
      [⟨.cacheGet (Key.decision r), some (d.cacheGet (Key.decision r)).1⟩],
      d.looked (Key.decision r)⟩ := by
  have hread := d.hold_getDecision d.config r
  rw [← d.kept?_eq, h] at hread
  simp only [evaluation, Engine.evaluate, hfit]
  rw [hold_bind hread]
  rfl

theorem result_of_kept? {d : Deployment} {r : Request} (hfit : r.defect? = none) {v : Verdict}
    (h : d.kept? r = some v) : (d.evaluation r).result = some (.ok v) := by
  rw [evaluation_of_kept? hfit h]

/-- A request for which nothing is kept is decided anew after one read of the cache. -/
theorem evaluation_of_unkept {d : Deployment} {r : Request} (hfit : r.defect? = none)
    (h : d.kept? r = none) :
    let anew := (d.asked r).hold (Engine.evaluateAnew d.config r)
    d.evaluation r = { anew with
      transcript := [⟨.cacheGet (Key.decision r), some (d.cacheGet (Key.decision r)).1⟩] ++
        anew.transcript } := by
  have hread := d.hold_getDecision d.config r
  rw [← d.kept?_eq, ← d.asked_eq, h] at hread
  simp only [evaluation, Engine.evaluate, hfit]
  rw [hold_bind hread]

/-- The evaluation of a fit request takes one of the ways that `Evaluation` lists. -/
theorem evaluation_fit (d : Deployment) {r : Request} (hfit : r.defect? = none) :
    SameWorld d (d.evaluation r).state ∧ Evaluation d r (d.evaluation r) := by
  cases hserved : d.kept? r with
  | some v =>
      rw [evaluation_of_kept? hfit hserved]
      exact ⟨d.sameWorld_looked _, .served v hserved rfl fun e => mem_of_mem_looked⟩
  | none =>
      rw [evaluation_of_unkept hfit hserved]
      exact d.hold_evaluateAnew hserved _

/-! ## With an empty cache -/

/-- With nothing in the cache, candidates come from the store. -/
theorem policies_of_source {d : Deployment} (hempty : d.cache.entries = [])
    {tenant : Option String} {now : Instant} {transcript : List Exchange} {policies : List Policy}
    (hsource : Source d tenant now transcript policies) :
    policies = Policy.distinct (d.backend.found tenant) := by
  cases hsource with
  | store hlist hqueried => exact hlist
  | cache hlive =>
      obtain ⟨e, he, -⟩ := hlive
      rw [hempty] at he
      cases he

/-- With nothing in the cache and nothing wrong with the store, a fit request
is decided from what the store holds for it. -/
theorem evaluation_empty {d : Deployment} (hempty : d.cache.entries = [])
    (horder : d.storeInOrder) {r : Request} (hfit : r.defect? = none) :
    (d.evaluation r).result =
      some (.ok (rule d.config r (Policy.distinct (d.backend.found r.tenant)) d.clock).verdict) := by
  obtain ⟨-, hways⟩ := d.evaluation_fit hfit
  cases hways with
  | served v hkept hresult hentries =>
      obtain ⟨e, he, -⟩ := live_of_kept? hkept
      rw [hempty] at he
      cases he
  | failed hkept hresult hdisorder hentries => exact absurd horder hdisorder
  | computed policies hkept hloaded hsource hresult hcache hentries =>
      rw [hresult, policies_of_source hempty hsource]

/-- The same settings, store and clock with nothing in the cache and nothing
wrong anywhere. -/
def afresh (d : Deployment) : Deployment :=
  start d.config d.cache.capacity d.backend d.clock 0

theorem evaluation_afresh (d : Deployment) {r : Request} (hfit : r.defect? = none) :
    (d.afresh.evaluation r).result =
      some (.ok (rule d.config r (Policy.distinct (d.backend.found r.tenant)) d.clock).verdict) :=
  evaluation_empty rfl ⟨rfl, rfl⟩ hfit

end Deployment

/-! ## A sample -/

namespace Sample

/-- A policy of no tenant that comes into force ten minutes after the start of
1970 and applies to everything. -/
def policy : Policy where
  key := "open-house"
  name := "Open house"
  enabled := true
  status := .active
  priority := 1
  tenant := none
  rules := none
  conditions := none
  actions := none
  effectiveFrom := some (Instant.epoch.advance (Time.ofMinutes 10))
  effectiveUntil := none

def request : Request where
  resourceType := "document"
  resourceId := none
  action := "read"
  user := "user-1"
  tenantField := some "tenant-1"
  clientIp := none
  timestamp := .epoch
  expiresAt := none

/-- An engine over a store with the policy, at some time after the start of
1970. -/
def deployment (span : Nat) : Deployment :=
  .start .standard 4 (.memory ⟨[policy], 0⟩) (Instant.epoch.advance span) 0

end Sample

end DecisionPoint
