import DecisionPoint.Proofs.Isolation
import DecisionPoint.Proofs.Questions

/-!
What evictions take out of the cache. Keys are taken out by what they begin with.
No key of a fit request begins like those of another type or action, and nothing
else begins like the engine's keys, so an eviction takes out what it is meant for
whatever else the cache holds. All other entries stay as they are, in their order.
After the eviction of everything the engine finds nothing of its own until it has
evaluated something again.
-/

namespace DecisionPoint

open Dialogue (asks_pure mem_run_bind)

def Event.evictsAll : Event → Bool
  | .record .evictAll => true
  | .policyChanged _ => true
  | _ => false

def FoundNothing (transcript : List Exchange) : Prop :=
  ∀ key answer, ⟨.cacheGet key, some answer⟩ ∈ transcript →
    ∀ text, answer.outcome ≠ .ok (some text)

namespace Deployment

/-- An event takes the entries of some keys out of the cache and answers how many
there were, expired ones included. Nothing else is changed. -/
structure Evicts (d : Deployment) (e : Event) (doomed : String → Bool) : Prop where
  reply : (d.happen e).result = some (.count (d.cache.countOf doomed))
  state : (d.happen e).state = { d with cache := d.cache.without doomed }

/-- The eviction by policy takes out the keys of its pattern. -/
theorem evicts_policy {d : Deployment} {resourceType action : String}
    (horder : (d.cacheFaults (Key.decisionsOn resourceType action)).delete = false) :
    d.Evicts (.record (.evictPolicy resourceType action))
      (LruCache.matchesPattern (Key.decisionsOn resourceType action)) := by
  have hevict := hold_evictAllUnder horder
  rw [LruCache.erasePattern_eq] at hevict
  constructor
  · simp only [happen, recordEvent, answer, DecisionCache.evictPolicy, hevict, Option.map_some]
  · simp only [happen, recordEvent, answer, DecisionCache.evictPolicy, hevict]

/-- The eviction of everything takes out the keys of the engine, and no other. -/
theorem evicts_all {d : Deployment} (horder : CacheFaults.canEvictAll d.cacheFaults = true) {e : Event}
    (he : e.evictsAll = true) : d.Evicts e Key.isEngineKey := by
  obtain ⟨hresult, hstate⟩ := hold_evictAll horder
  have hhappen : d.happen e = d.answer DecisionCache.evictAll .count := by
    cases e with
    | record e =>
        cases e with
        | evictAll => rfl
        | _ => cases he
    | policyChanged p => rfl
    | _ => cases he
  constructor
  · rw [hhappen, answer, hresult]
    rfl
  · rw [hhappen, answer_state, hstate]

theorem happen_evictDecision {d : Deployment} {r : Request}
    (horder : (d.cacheFaults (Key.decision r)).delete = false) : (d.happen (.record (.evictDecision r))).state =
      { d with cache := d.cache.without (· == Key.decision r) } := by
  rw [← LruCache.erase_eq]
  simp [happen, recordEvent, answer_state, DecisionCache.evictDecision, hold, Dialogue.run_bind,
    Dialogue.query, Dialogue.run, Dialogue.run_pure, Course.andThen, collaborators, horder]

/-! ## Evaluations that find nothing -/

theorem outcome_of_absent {d : Deployment} {key : String}
    (habsent : ∀ x ∈ d.cache.entries, x.key ≠ key) (text : String) :
    (d.cacheGet key).1.outcome ≠ .ok (some text) := by
  intro hfound
  by_cases hfault : (d.cacheFaults key).get = true
  · simp [cacheGet, wait, hfault] at hfound
  · have hget : (d.cache.get (d.elapsed + (d.cacheFaults key).delay) key).1 = some text := by
      simpa [cacheGet, wait, hfault] using hfound
    obtain ⟨x, hx, hkey, -⟩ := LruCache.live_of_get hget
    exact habsent x hx hkey

/-- Looking for candidates finds none where the cache has none for the scope. -/
theorem foundNothing_keptCandidates {d : Deployment} (c : Config) {tenant : Option String}
    (habsent : ∀ x ∈ d.cache.entries, x.key ≠ Key.candidates tenant) :
    FoundNothing (d.hold (Engine.keptCandidates c tenant)).transcript := by
  intro key answer hread
  unfold Engine.keptCandidates at hread
  split at hread
  · rw [hold_getCandidates] at hread
    cases List.mem_singleton.mp hread
    exact outcome_of_absent habsent
  · cases hread

/-- A dialogue that reads no key finds nothing. -/
theorem foundNothing_of_asks {x : Dialogue α}
    (h : x.Asks fun question => ∀ key, question ≠ .cacheGet key) (d : Deployment) :
    FoundNothing (d.hold x).transcript := by
  intro key answer hread
  exact absurd rfl (h _ _ (Dialogue.held_run collaborators x d) _ hread key)

/-- An evaluation whose request has no decision and no candidate list in the cache
finds none. -/
theorem foundNothing_evaluation {d : Deployment} {r : Request} (hfit : r.defect? = none)
    (hverdict : ∀ x ∈ d.cache.entries, x.key ≠ Key.decision r)
    (hlist : ∀ x ∈ d.cache.entries, x.key ≠ Key.candidates r.tenant) :
    FoundNothing (d.evaluation r).transcript := by
  have hkept : d.kept? r = none := by
    rw [Option.eq_none_iff_forall_ne_some]
    intro v hserved
    obtain ⟨x, hx, hkey, -⟩ := live_of_kept? hserved
    exact hverdict x hx hkey
  have hdecision := d.hold_getDecision d.config r
  rw [← d.kept?_eq, ← d.asked_eq, hkept] at hdecision
  obtain ⟨-, hsub⟩ := d.asked_ticked r
  have habsent : ∀ x ∈ (d.asked r).ticked.cache.entries, x.key ≠ Key.candidates r.tenant :=
    fun x hx => hlist x (hsub x hx)
  intro key answer hread
  simp only [evaluation, Engine.evaluate, hfit] at hread
  rw [hold_bind hdecision, evaluateAnew_eq, hold_bind (d.asked r).hold_now] at hread
  -- The decision is read, then the clock, then the candidates; the rest reads no key.
  rcases List.mem_append.mp hread with hfirst | hread
  · cases List.mem_singleton.mp hfirst
    exact outcome_of_absent hverdict
  rcases List.mem_append.mp hread with hclock | hread
  · cases List.mem_singleton.mp hclock
  rcases mem_run_bind hread with hcandidates | ⟨outcome, -, hrest⟩
  · rw [candidates_eq] at hcandidates
    rcases mem_run_bind hcandidates with hlooked | ⟨kept, -, hloaded⟩
    · exact foundNothing_keptCandidates d.config habsent key answer hlooked
    · refine foundNothing_of_asks ?_ _ key answer hloaded
      cases kept with
      | none => exact asks_newCandidates (by simp) (by simp) (by simp) _ _
      | some policies => exact asks_pure _
  · refine foundNothing_of_asks ?_ _ key answer hrest
    cases outcome with
    | error e => exact asks_pure _
    | ok policies => exact asks_conclude (by simp) (by simp) _ _

/-! ## What evictions do to the keys of requests -/

/-- Where nothing but the engine writes the cache and nothing is evaluated, no
entry comes into it. -/
theorem mem_of_mem_after (executor : Executor) {d : Deployment} {es : List Event}
    (hquiet : ∀ e ∈ es, e.sparesCache = true ∧ e.isEvaluation = false) {x : CacheEntry}
    (hx : x ∈ (d.after executor es).cache.entries) : x ∈ d.cache.entries := by
  induction es generalizing d with
  | nil => exact hx
  | cons e es ih =>
      obtain ⟨hspares, hnone⟩ := hquiet e List.mem_cons_self
      have hstep := ih (fun e' he' => hquiet e' (List.mem_cons_of_mem _ he')) hx
      rcases happen_sparing hspares hstep with hthere | ⟨r, hrequest, -, -⟩
      · exact hthere
      · rw [Event.isEvaluation_of_request? hrequest] at hnone
        cases hnone

/-- An eviction takes out the entries of what it is meant for and counts them, and
leaves all others as they are, in their order. The eviction of a type and an
action is meant for the decisions on the requests with this type and this action,
that of everything for all keys that begin like the engine's, that of one decision
for the key of its request. While nobody else writes the cache, the first
evaluation of any fit request after the eviction of everything finds nothing kept. -/
theorem eviction_confined (d : Deployment) :
    (∀ resourceType action, ':' ∉ resourceType.toList → ':' ∉ action.toList →
      ((d.cacheFaults (Key.decisionsOn resourceType action)).delete = false →
        d.Evicts (.record (.evictPolicy resourceType action))
          (LruCache.matchesPattern (Key.decisionsOn resourceType action))) ∧
        (∀ r : Request, r.defect? = none →
          (LruCache.matchesPattern (Key.decisionsOn resourceType action) (Key.decision r) = true ↔
            r.resourceType = resourceType ∧ r.action = action)) ∧
        ∀ tenant, LruCache.matchesPattern (Key.decisionsOn resourceType action)
          (Key.candidates tenant) = false) ∧
      (∀ e, Event.evictsAll e = true → CacheFaults.canEvictAll d.cacheFaults = true →
        d.Evicts e Key.isEngineKey ∧
          ∀ executor es, (∀ e' ∈ es, e'.sparesCache = true ∧ e'.isEvaluation = false) →
            ∀ e' r, Event.request? e' = some r → r.defect? = none →
              FoundNothing ((((d.step executor e).state).after executor es).happen e').transcript) ∧
      ∀ r, (d.cacheFaults (Key.decision r)).delete = false →
        (d.happen (.record (.evictDecision r))).state =
          { d with cache := d.cache.without (· == Key.decision r) } := by
  refine ⟨?_, ?_, fun r => happen_evictDecision⟩
  · intro resourceType action htype haction
    exact ⟨evicts_policy,
      fun r hfit => Key.matchesPattern_decisionsOn htype haction hfit,
      Key.matchesPattern_candidates resourceType action⟩
  · intro e he horder
    have hevicts := evicts_all horder he
    refine ⟨hevicts, ?_⟩
    intro executor es hquiet e' r hrequest hfit
    have hnone : ∀ x ∈ ((d.step executor e).state.after executor es).cache.entries,
        Key.isEngineKey x.key = false := by
      intro x hx
      have hleft := mem_of_mem_after executor hquiet hx
      rw [(step_state executor d e).2, hevicts.state] at hleft
      simpa using (List.mem_filter.mp hleft).2
    rw [(happen_request hrequest hfit).2]
    apply foundNothing_evaluation hfit
    · rintro x hx hkey
      have habsent := hnone x hx
      rw [hkey, Key.isEngineKey_decision] at habsent
      cases habsent
    · rintro x hx hkey
      have habsent := hnone x hx
      rw [hkey, Key.isEngineKey_candidates] at habsent
      cases habsent

/-- A cache that holds the verdict on a request, the candidates of no tenant and a
text of somebody else. -/
def sampleMixed : Deployment :=
  { Sample.deployment 0 with
    cache := ⟨4, [⟨"session:alice", "open", 9⟩, ⟨Key.decision Sample.request, "", 0⟩,
      ⟨Key.candidates none, "[]", 7⟩]⟩ }

theorem eviction_confined_sample :
    (∀ start, (sampleMixed.cacheFaults start).delete = false) ∧
      (sampleMixed.happen (.record (.evictPolicy "document" "read"))).result =
        some (.count 1) ∧
      (sampleMixed.happen (.record (.evictPolicy "document" "read"))).state.cache.keys =
        ["session:alice", Key.candidates none] ∧
      (sampleMixed.happen (.policyChanged Sample.policy)).result = some (.count 2) ∧
      (sampleMixed.happen (.policyChanged Sample.policy)).state.cache.keys =
        ["session:alice"] := by
  obtain ⟨honly, hall, -⟩ := eviction_confined sampleMixed
  obtain ⟨hevicts, -, -⟩ := honly "document" "read" (by decide) (by decide)
  have hsome := hevicts rfl
  obtain ⟨hevery, -⟩ := hall (.policyChanged Sample.policy) rfl rfl
  have hone : sampleMixed.cache.countOf
      (LruCache.matchesPattern (Key.decisionsOn "document" "read")) = 1 := by decide +kernel
  have htwo : sampleMixed.cache.countOf Key.isEngineKey = 2 := by decide +kernel
  refine ⟨fun _ => rfl, ?_, ?_, ?_, ?_⟩
  · rw [hsome.reply, hone]
  · rw [hsome.state]
    decide +kernel
  · rw [hevery.reply, htwo]
  · rw [hevery.state]
    decide +kernel

end Deployment

end DecisionPoint
