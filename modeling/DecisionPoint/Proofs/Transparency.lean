import DecisionPoint.Proofs.Evaluation
import DecisionPoint.Proofs.Records
import DecisionPoint.Proofs.Run

/-!
The cache is transparent. In a run that announces every change of the stored
policies before it evaluates again, a request is given the answer that the
engine would give with an empty cache.

The invariant of such a run is that every kept text is the text of what is
decided now: a candidate list is the list the store would give, and a verdict
was decided from that list, at an instant from which it has not lived longer
than its lifetime. While a change is unannounced nothing is claimed but that
all keys are the engine's own, so that the announcement empties the cache.
-/

namespace DecisionPoint

open Time (Instant)

/-! ## Runs that announce their changes -/

/-- Whether a run evaluates, changes the store, evicts, lets time pass and
impairs single calls of the cache or all, and announces all changes of the store,
with deletions in order, before it evaluates again. On the way it knows whether a
change is still to be announced, and the faults of the cache. -/
def announces (pending : Bool) (faults : String → CacheFaults) : List Move → Bool
  | [] => true
  | .pass _ :: ms => announces pending faults ms
  | .event (.evaluate _) :: ms => !pending && announces pending faults ms
  | .event (.evaluateText _) :: ms => !pending && announces pending faults ms
  | .event (.upsert _) :: ms => announces true faults ms
  | .event (.remove _) :: ms => announces true faults ms
  | .event (.policyChanged _) :: ms =>
    announces (pending && !CacheFaults.canEvictAll faults) faults ms
  | .event (.record .evictAll) :: ms =>
    announces (pending && !CacheFaults.canEvictAll faults) faults ms
  | .event (.record (.evictPolicy _ _)) :: ms => announces pending faults ms
  | .event (.cacheFaults f) :: ms => announces pending (fun _ => f) ms
  | .event (.keyFaults key f) :: ms => announces pending (CacheFaults.replace faults key f) ms
  | _ => false

/-- Whether a policy does without the time of day and without leap seconds. -/
def Policy.isPlain (p : Policy) : Bool :=
  p.isTimeless && p.bounds.all Instant.isPlain

def Move.storesPlain : Move → Bool
  | .event (.upsert p) => p.isPlain
  | _ => true

namespace Deployment

/-! ## What the cache holds -/

/-- Whether a kept text is the text of what is decided now. -/
inductive Faithful (d : Deployment) (requests : List Request) (x : CacheEntry) : Prop
  | decision (s : Request) (now : Instant) (hmem : s ∈ requests) (hfit : s.defect? = none)
      (hplain : now.isPlain = true) (hkey : x.key = Key.decision s)
      (hvalue : x.value =
        (rule d.config s (Policy.distinct (d.backend.found s.tenant)) now).verdict.toText)
      (hpast : now.count ≤ d.clock.count)
      (hspan : (x.expiresAt : Int) - d.elapsed + (d.clock.count - now.count) ≤
        Time.ofMinutes (lifetimeOf d.config s
          (Policy.nextChange (Policy.distinct (d.backend.found s.tenant)) now) now).toNat)
  | candidates (tenant : Option String) (hkey : x.key = Key.candidates tenant)
      (hvalue : x.value = Policy.listToText (Policy.distinct (d.backend.found tenant)))

/-- A text stays faithful while the store finds the same. -/
theorem Faithful.later {d later : Deployment} {requests : List Request} {x : CacheEntry}
    (h : Faithful d requests x) (hlater : Later d later)
    (hfound : ∀ tenant, later.backend.found tenant = d.backend.found tenant) :
    Faithful later requests x := by
  cases h with
  | decision s now hmem hfit hplain hkey hvalue hpast hspan =>
      refine .decision s now hmem hfit hplain hkey ?_ ?_ ?_
      · rw [hlater.config, hfound]
        exact hvalue
      · exact Int.le_trans hpast hlater.clock
      · have hage := hlater.age
        rw [hlater.config, hfound]
        omega
  | candidates tenant hkey hvalue =>
      refine .candidates tenant hkey ?_
      rw [hfound]
      exact hvalue

def IsOwnKey (key : String) : Prop :=
  (∃ r, key = Key.decision r) ∨ ∃ tenant, key = Key.candidates tenant

/-- The clock is timed, the store is in order and holds plain policies, and the
faults of the cache are known. -/
structure Ready (faults : String → CacheFaults) (d : Deployment) : Prop where
  timed : d.IsTimed
  order : d.storeInOrder
  faults : d.cacheFaults = faults
  stored : ∃ store, d.backend = .memory store ∧ ∀ p ∈ store.policies, p.isPlain = true

/-- A run has come here with a change of the store to be announced or without.
-/
structure Announced (requests : List Request) (pending : Bool) (faults : String → CacheFaults)
    (d : Deployment) : Prop where
  ready : Ready faults d
  own : ∀ x ∈ d.cache.entries, IsOwnKey x.key
  faithful : pending = false → ∀ x ∈ d.cache.entries, Faithful d requests x

section Invariant

variable {requests : List Request} {pending : Bool} {faults : String → CacheFaults}
  {d : Deployment}

theorem Announced.plain (h : Announced requests pending faults d) {tenant : Option String}
    {p : Policy} (hp : p ∈ Policy.distinct (d.backend.found tenant)) :
    p.isTimeless = true ∧ ∀ bound ∈ p.bounds, bound.isPlain = true := by
  obtain ⟨store, hstore, hplain⟩ := h.ready.stored
  rw [hstore] at hp
  have hpolicy := hplain p (Backend.mem_of_mem_found (Policy.mem_of_mem_distinct hp))
  rw [Policy.isPlain, Bool.and_eq_true, List.all_eq_true] at hpolicy
  exact hpolicy

theorem Ready.sameWorld (h : Ready faults d) {later : Deployment} (hworld : SameWorld d later) :
    Ready faults later where
  timed := hworld.progress.isTimed h.timed
  order := hworld.storeInOrder h.order
  faults := hworld.cacheFaults.trans h.faults
  stored := by
    obtain ⟨store, hstore, hplain⟩ := h.stored
    obtain ⟨store', hstore', hpolicies⟩ := Backend.stored_of_uncounted hworld.backend hstore
    exact ⟨store', hstore', by rw [hpolicies]; exact hplain⟩

theorem Announced.old (h : Announced requests pending faults d) {later : Deployment}
    (hworld : SameWorld d later) (hclean : pending = false) {x : CacheEntry}
    (hx : x ∈ d.cache.entries) : Faithful later requests x :=
  (h.faithful hclean x hx).later (hworld.progress.later h.ready.timed.tick) hworld.found

/-- What leaves the world as it is and keeps nothing new keeps the invariant. -/
theorem Announced.sameWorld (h : Announced requests pending faults d) {later : Deployment}
    (hworld : SameWorld d later) (hentries : ∀ x ∈ later.cache.entries, x ∈ d.cache.entries) :
    Announced requests pending faults later where
  ready := h.ready.sameWorld hworld
  own := fun x hx => h.own x (hentries x hx)
  faithful := fun hclean x hx => h.old hworld hclean (hentries x hx)

/-- Where all keys are the engine's and deletions are in order, the eviction of
everything leaves nothing. -/
theorem evictAll_empties (hown : ∀ x ∈ d.cache.entries, IsOwnKey x.key)
    (horder : CacheFaults.canEvictAll d.cacheFaults = true) :
    ∀ x, x ∉ (d.hold DecisionCache.evictAll).state.cache.entries := by
  intro x hx
  rw [(hold_evictAll horder).2] at hx
  obtain ⟨hmem, hforeign⟩ := List.mem_filter.mp hx
  rcases hown x hmem with ⟨r, hkey⟩ | ⟨tenant, hkey⟩
  · rw [hkey, Key.isEngineKey_decision] at hforeign
    cases hforeign
  · rw [hkey, Key.isEngineKey_candidates] at hforeign
    cases hforeign

/-- An eviction in order announces a change; one that fails leaves it to be announced. -/
theorem Announced.evictAll (h : Announced requests pending faults d) {later : Deployment}
    (hworld : SameWorld (d.hold DecisionCache.evictAll).state later)
    (hcache : later.cache = (d.hold DecisionCache.evictAll).state.cache) :
    Announced requests (pending && !CacheFaults.canEvictAll faults) faults later := by
  obtain ⟨hevict, hentries⟩ := hold_keepsOut Dialogue.keepsOut_evictAll d
  have hsame := h.sameWorld (hevict.trans hworld) fun x hx => hentries x (by rw [← hcache]; exact hx)
  refine { hsame with faithful := ?_ }
  intro hclean x hx
  cases hworks : CacheFaults.canEvictAll faults with
  | false =>
      rw [hworks, Bool.not_false, Bool.and_true] at hclean
      exact hsame.faithful hclean x hx
  | true =>
      rw [hcache] at hx
      rw [← h.ready.faults] at hworks
      exact absurd hx (evictAll_empties h.own hworks x)

/-- Answers are computed from the lists that the store gives, whether the cache
or the store gave them. -/
theorem Announced.policies (h : Announced requests false faults d) {tenant : Option String}
    {now : Instant} {transcript : List Exchange} {policies : List Policy}
    (hsource : Source d tenant now transcript policies) :
    policies = Policy.distinct (d.backend.found tenant) := by
  cases hsource with
  | store hlist hqueried => exact hlist
  | cache hlive =>
      obtain ⟨x, hx, hkey, -, htext⟩ := hlive
      cases h.faithful rfl x hx with
      | decision s now hmem hfit hplain hkey' hvalue hpast hspan =>
          rw [hkey'] at hkey
          exact absurd hkey (Key.decision_ne_candidates s tenant)
      | candidates tenant' hkey' hvalue =>
          rw [hkey'] at hkey
          obtain rfl := Key.candidates_scope hkey
          rw [hvalue] at htext
          exact Policy.listOfText?_eq htext

theorem Announced.written (h : Announced requests false faults d) {r : Request}
    (hfit : r.defect? = none) (hmem : r ∈ requests) {later : Deployment}
    (hworld : SameWorld d later) (hspent : (d.evaluation r).state.elapsed ≤ later.elapsed)
    {x : CacheEntry} (hx : Writes d r x) : IsOwnKey x.key ∧ Faithful later requests x := by
  have hclock := hworld.clock h.ready.timed.tick
  cases hx with
  | decision policies hkept hloaded hsource hresult =>
      obtain rfl := h.policies hsource
      refine ⟨.inl ⟨r, rfl⟩, .decision r d.clock hmem hfit h.ready.timed.plain rfl ?_ ?_ ?_⟩
      · rw [hworld.config, hworld.found]
        rfl
      · exact Int.le_of_eq (by rw [hclock])
      · rw [hworld.config, hworld.found, hclock]
        simp only [decisionEntry, DecisionCache.lifetime, rule_expiration, Option.getD_some]
        omega
  | candidates hqueried =>
      refine ⟨.inr ⟨r.tenant, rfl⟩, .candidates r.tenant rfl ?_⟩
      rw [hworld.found]
      rfl

/-- What an evaluation writes is faithful, as no change is pending. -/
theorem Announced.evaluate (h : Announced requests false faults d) {r : Request}
    (hfit : r.defect? = none) (hmem : r ∈ requests) {later : Deployment}
    (hworld : SameWorld (d.evaluation r).state later)
    (hcache : later.cache = (d.evaluation r).state.cache) :
    Announced requests false faults later := by
  have hwhole := (d.evaluation_fit hfit).1.trans hworld
  have hentries : ∀ x ∈ later.cache.entries, x ∈ d.cache.entries ∨ Writes d r x := by
    intro x hx
    rw [hcache] at hx
    exact evaluation_entries hfit hx
  refine ⟨h.ready.sameWorld hwhole, ?_, ?_⟩
  · intro x hx
    rcases hentries x hx with hold | hnew
    · exact h.own x hold
    · exact (h.written hfit hmem hwhole hworld.elapsed hnew).1
  · intro _ x hx
    rcases hentries x hx with hold | hnew
    · exact h.old hwhole rfl hold
    · exact (h.written hfit hmem hwhole hworld.elapsed hnew).2

theorem Announced.evaluates (h : Announced requests false faults d) {e : Event}
    (he : e.isEvaluation = true) (hrequest : ∀ r, e.request? = some r → r ∈ requests)
    {later : Deployment} (hworld : SameWorld (d.happen e).state later)
    (hcache : later.cache = (d.happen e).state.cache) :
    Announced requests false faults later := by
  by_cases hfits : ∃ r, e.request? = some r ∧ r.defect? = none
  · obtain ⟨r, hr, hfit⟩ := hfits
    rw [(happen_request hr hfit).1] at hworld hcache
    exact h.evaluate hfit (hrequest r hr) hworld hcache
  · rw [happen_unfit he fun r hr hfit => hfits ⟨r, hr, hfit⟩] at hworld hcache
    refine h.sameWorld hworld ?_
    intro x hx
    rw [← hcache]
    exact hx

/-- Whether equal keys mean equal resources and equal addresses among some
requests. -/
def SubjectsByKey (requests : List Request) : Prop :=
  ∀ r ∈ requests, ∀ s ∈ requests, r.defect? = none → s.defect? = none →
    Key.decision r = Key.decision s → r.resourceId = s.resourceId ∧ r.clientIp = s.clientIp

/-- A fit request is answered, and answered as with an empty cache. -/
theorem Announced.answer (h : Announced requests false faults d)
    (hsubjects : SubjectsByKey requests) {r : Request} (hfit : r.defect? = none)
    (hmem : r ∈ requests) :
    ∃ v, (d.evaluation r).result = some (.ok v) ∧
      (rule d.config r (Policy.distinct (d.backend.found r.tenant)) d.clock).verdict.SameAnswer
        v := by
  obtain ⟨-, hways⟩ := d.evaluation_fit hfit
  cases hways with
  | failed hkept hresult horder hentries => exact absurd h.ready.order horder
  | computed policies hkept hloaded hsource hresult hcache hentries =>
      rw [h.policies hsource] at hresult
      exact ⟨_, hresult, ⟨rfl, rfl, rfl, rfl, rfl⟩⟩
  | served v hkept hresult hentries =>
      refine ⟨v, hresult, ?_⟩
      obtain ⟨x, hx, hkey, hlive, htext⟩ := live_of_kept? hkept
      cases h.faithful rfl x hx with
      | candidates tenant hkey' hvalue =>
          rw [hkey'] at hkey
          exact absurd hkey.symm (Key.decision_ne_candidates r tenant)
      | decision s now hmem' hfit' hplain hkey' hvalue hpast hspan =>
          rw [hkey'] at hkey
          obtain ⟨htype, haction, huser, htenant⟩ := Key.decision_components hfit' hfit hkey
          obtain ⟨hid, hip⟩ := hsubjects s hmem' r hmem hfit' hfit hkey
          rw [hvalue] at htext
          obtain rfl := Verdict.ofText?_eq (by rw [rule_timestamp, truncateToMillis_idem]) htext
          rw [← htenant]
          have hlives : d.clock.count - now.count < Time.ofMinutes (lifetimeOf d.config s
              (Policy.nextChange (Policy.distinct (d.backend.found s.tenant)) now) now).toNat := by
            omega
          have hquiet := undisturbed_of_lifetime hplain h.ready.timed.plain
            (fun p hp => (h.plain hp).2) hlives
          apply rule_sameAnswer ⟨htype, hid, huser, hip⟩ _ hquiet
          · exact .inr fun p hp => (h.plain hp).1
          · rw [Instant.le_iff_count hplain h.ready.timed.plain]
            exact hpast

/-! ## The moves of a run -/

/-- A changed store is a change to be announced. -/
theorem Announced.change (h : Announced requests pending faults d)
    {f : PolicyStore → PolicyStore}
    (hplain : ∀ store : PolicyStore, (∀ p ∈ store.policies, p.isPlain = true) →
      ∀ p ∈ (f store).policies, p.isPlain = true) {later : Deployment}
    (hworld : SameWorld { d with backend := d.backend.change f } later)
    (hcache : later.cache = d.cache) : Announced requests true faults later := by
  have hchanged : Ready faults { d with backend := d.backend.change f } := by
    obtain ⟨store, hstore, hpolicies⟩ := h.ready.stored
    refine ⟨⟨h.ready.timed.tick, h.ready.timed.plain⟩, h.ready.order, h.ready.faults,
      f store, ?_, hplain store hpolicies⟩
    simp only [hstore, Backend.change]
  refine ⟨hchanged.sameWorld hworld, ?_, fun hclean => by cases hclean⟩
  intro x hx
  rw [hcache] at hx
  exact h.own x hx

/-- Other faults of the cache leave what it holds as it is. -/
theorem Announced.impair (h : Announced requests pending faults d)
    {others : String → CacheFaults} {later : Deployment}
    (hworld : SameWorld { d with cacheFaults := others } later) (hcache : later.cache = d.cache) :
    Announced requests pending others later := by
  have hothers : Announced requests pending others { d with cacheFaults := others } := by
    refine ⟨⟨⟨h.ready.timed.tick, h.ready.timed.plain⟩, h.ready.order, rfl, h.ready.stored⟩,
      h.own, ?_⟩
    intro hclean x hx
    have hlater : Later d { d with cacheFaults := others } := ⟨rfl, Int.le_refl _, by simp⟩
    exact (h.faithful hclean x hx).later hlater fun _ => rfl
  refine hothers.sameWorld hworld ?_
  intro x hx
  rw [hcache] at hx
  exact hx

theorem Announced.pass (executor : Executor) (h : Announced requests pending faults d)
    (span : Nat) : Announced requests pending faults (d.after executor (Move.pass span).events) := by
  obtain ⟨htimed, hlater⟩ := move_later executor h.ready.timed (m := .pass span) rfl
  obtain ⟨dispatcher, hpass⟩ := after_pass executor d span
  rw [hpass] at htimed hlater ⊢
  refine ⟨⟨htimed, h.ready.order, h.ready.faults, h.ready.stored⟩, h.own, ?_⟩
  intro hclean x hx
  exact (h.faithful hclean x hx).later hlater fun _ => rfl

/-- A move of a run keeps the invariant under the flags that it leaves. -/
theorem Announced.move (executor : Executor) (h : Announced requests pending faults d) {m : Move}
    {ms : List Move} (hrun : announces pending faults (m :: ms) = true)
    (hrequest : ∀ r, m.request? = some r → r ∈ requests) (hplain : m.storesPlain = true) :
    ∃ pending' faults', announces pending' faults' ms = true ∧
      Announced requests pending' faults' (d.after executor m.events) := by
  cases m with
  | pass span => exact ⟨pending, faults, hrun, h.pass executor span⟩
  | event e =>
      obtain ⟨hsettled, hcache⟩ := step_state executor d e
      change ∃ pending' faults', _ ∧ Announced requests pending' faults' (d.step executor e).state
      cases e with
      | evaluate r =>
          rw [announces, Bool.and_eq_true, Bool.not_eq_true'] at hrun
          obtain ⟨rfl, hrest⟩ := hrun
          exact ⟨false, faults, hrest,
            h.evaluates (e := .evaluate r) rfl hrequest hsettled hcache⟩
      | evaluateText s =>
          rw [announces, Bool.and_eq_true, Bool.not_eq_true'] at hrun
          obtain ⟨rfl, hrest⟩ := hrun
          exact ⟨false, faults, hrest,
            h.evaluates (e := .evaluateText s) rfl hrequest hsettled hcache⟩
      | upsert p =>
          refine ⟨true, faults, hrun, h.change ?_ hsettled hcache⟩
          intro store hstore q hq
          rcases mem_place hq with rfl | hold
          · exact hplain
          · exact hstore q hold
      | remove key =>
          refine ⟨true, faults, hrun, h.change ?_ hsettled hcache⟩
          intro store hstore q hq
          exact hstore q (List.mem_filter.mp hq).1
      | policyChanged p =>
          exact ⟨_, faults, hrun, h.evictAll hsettled hcache⟩
      | cacheFaults f => exact ⟨pending, fun _ => f, hrun, h.impair hsettled hcache⟩
      | keyFaults key f =>
          have hreplaced := h.impair hsettled hcache
          rw [h.ready.faults] at hreplaced
          exact ⟨pending, CacheFaults.replace faults key f, hrun, hreplaced⟩
      | record e =>
          cases e with
          | evictAll => exact ⟨_, faults, hrun, h.evictAll hsettled hcache⟩
          | evictPolicy resourceType action =>
              obtain ⟨hworld, hentries⟩ :=
                hold_keepsOut (Dialogue.keepsOut_evictAllUnder
                  (Key.decisionsOn resourceType action)) d
              refine ⟨pending, faults, hrun, h.sameWorld (hworld.trans hsettled) ?_⟩
              intro x hx
              rw [hcache] at hx
              exact hentries x hx
          | _ => cases hrun
      | _ => cases hrun

/-- A run that announces its changes comes to faithful caches only. -/
theorem Announced.run (executor : Executor) {ms rest : List Move}
    (h : Announced requests pending faults d)
    (hrun : announces pending faults (ms ++ rest) = true)
    (hrequests : ∀ m ∈ ms, ∀ r, m.request? = some r → r ∈ requests)
    (hplain : ∀ m ∈ ms, m.storesPlain = true) :
    ∃ pending' faults', announces pending' faults' rest = true ∧
      Announced requests pending' faults' (d.run executor ms) := by
  induction ms generalizing d pending faults with
  | nil => exact ⟨pending, faults, hrun, h⟩
  | cons m ms ih =>
      obtain ⟨pending', faults', hrest, hmove⟩ :=
        h.move executor hrun (hrequests m List.mem_cons_self) (hplain m List.mem_cons_self)
      exact ih hmove hrest (fun n hn => hrequests n (List.mem_cons_of_mem _ hn))
        fun n hn => hplain n (List.mem_cons_of_mem _ hn)

end Invariant

/-- A run over a cache that starts empty, with the requests that it has
evaluated and the policies that it stores, fit for the transparency of the
cache: every change is announced, no policy looks at the time of day, no
instant lies in a leap second, and equal keys mean equal subjects. -/
structure FaithfulRun (store : PolicyStore) (clock : Instant) (ms : List Move) : Prop where
  announced : announces false (fun _ => .none) ms = true
  stored : ∀ p ∈ store.policies, p.isPlain = true
  upserted : ∀ m ∈ ms, m.storesPlain = true
  clock : clock.isPlain = true
  subjects : SubjectsByKey (ms.filterMap Move.request?)

theorem announced_start (c : Config) (capacity : Nat) {store : PolicyStore} {clock : Instant}
    (hstored : ∀ p ∈ store.policies, p.isPlain = true) (hclock : clock.isPlain = true)
    (requests : List Request) :
    Announced requests false (fun _ => .none) (start c capacity (.memory store) clock 0) := by
  refine ⟨⟨⟨rfl, hclock⟩, ⟨rfl, rfl⟩, rfl, store, rfl, hstored⟩, ?_, ?_⟩
  · intro x hx
    cases hx
  · intro _ x hx
    cases hx

/-- An evaluation of a run comes where no change is to be announced, and waits
for its answer. -/
theorem clean_of_announces {pending : Bool} {faults : String → CacheFaults} {e : Event}
    {r : Request} {ms : List Move}
    (hrun : announces pending faults (.event e :: ms) = true) (hrequest : e.request? = some r) :
    pending = false ∧ (e = .evaluate r ∨ ∃ s, e = .evaluateText s ∧ Request.ofText s = .ok r) := by
  cases e with
  | evaluate r' =>
      cases hrequest
      rw [announces, Bool.and_eq_true, Bool.not_eq_true'] at hrun
      exact ⟨hrun.1, .inl rfl⟩
  | evaluateText s =>
      rw [announces, Bool.and_eq_true, Bool.not_eq_true'] at hrun
      exact ⟨hrun.1, .inr ⟨s, rfl, ofText_of_toOption hrequest⟩⟩
  | evaluateAsync r' deadline => cases hrun
  | evaluateTextAsync s deadline => cases hrun
  | _ => cases hrequest

theorem reply_of_evaluation (executor : Executor) {d : Deployment} {e : Event} {r : Request}
    {outcome : Except EngineError Verdict}
    (he : e = .evaluate r ∨ ∃ s, e = .evaluateText s ∧ Request.ofText s = .ok r)
    (hresult : (d.evaluation r).result = some outcome) :
    (d.step executor e).reply = .evaluation outcome := by
  rw [evaluation] at hresult
  rcases he with rfl | ⟨s, rfl, hread⟩
  · simp only [step, happen, answer, hresult, Option.map_some, Option.getD_some]
  · simp only [step, happen, answer, Engine.evaluateText, hread, hresult, Option.map_some,
      Option.getD_some]

/-- In a run that announces its changes, every evaluation of a fit request is
answered, and answered as with an empty cache on the store of that instant. -/
theorem reply_transparent (executor : Executor) (c : Config) (capacity : Nat)
    (store : PolicyStore) (clock : Instant) (before later : List Move) (e : Event) (r : Request)
    (hrun : FaithfulRun store clock (before ++ .event e :: later)) (hrequest : e.request? = some r)
    (hfit : r.defect? = none) :
    ∃ v w,
      (((start c capacity (.memory store) clock 0).run executor before).step executor e).reply =
        .evaluation (.ok v) ∧
      (((start c capacity (.memory store) clock 0).run executor before).afresh.evaluation r).result =
        some (.ok w) ∧
      v.SameAnswer w := by
  have hmove : Move.event e ∈ before ++ .event e :: later :=
    List.mem_append_right _ List.mem_cons_self
  obtain ⟨pending, faults, hrest, hstate⟩ :=
    (announced_start c capacity hrun.stored hrun.clock _).run executor hrun.announced
      (fun m hm r hr => List.mem_filterMap.mpr ⟨m, List.mem_append_left _ hm, hr⟩)
      fun m hm => hrun.upserted m (List.mem_append_left _ hm)
  obtain ⟨rfl, hsync⟩ := clean_of_announces hrest hrequest
  obtain ⟨v, hresult, hsame⟩ := hstate.answer hrun.subjects hfit
    (List.mem_filterMap.mpr ⟨_, hmove, hrequest⟩)
  exact ⟨v, _, reply_of_evaluation executor hsync hresult, evaluation_afresh _ hfit, hsame.symm⟩

/-- A verdict is kept, and is then computed anew because it cannot be read while
the candidates can. A policy comes into force and is later removed; the first
announcement of that leaves the candidates behind. -/
def sampleMoves : List Move :=
  [.event (.evaluate Sample.request),
    .event (.keyFaults (Key.decision Sample.request) ⟨true, false, false, 0⟩),
    .event (.evaluate Sample.request), .pass (Time.ofMinutes 12),
    .event (.evaluate Sample.request), .event (.remove Sample.policy.key),
    .event (.keyFaults Key.candidateLists ⟨false, false, true, 0⟩),
    .event (.policyChanged Sample.policy), .event (.cacheFaults .none),
    .event (.policyChanged Sample.policy)]

theorem reply_transparent_sample :
    FaithfulRun ⟨[Sample.policy], 0⟩ .epoch
        (sampleMoves ++ .event (.evaluate Sample.request) :: []) ∧
      Sample.request.defect? = none ∧
      ∃ v w,
        (((start .standard 4 (.memory ⟨[Sample.policy], 0⟩) .epoch 0).run .lenient sampleMoves).step
          .lenient (.evaluate Sample.request)).reply = .evaluation (.ok v) ∧
        (((start .standard 4 (.memory ⟨[Sample.policy], 0⟩) .epoch 0).run .lenient
          sampleMoves).afresh.evaluation Sample.request).result = some (.ok w) ∧
        v.SameAnswer w := by
  have hrun : FaithfulRun ⟨[Sample.policy], 0⟩ .epoch
      (sampleMoves ++ .event (.evaluate Sample.request) :: []) := by
    constructor
    · rfl
    · decide +kernel
    · decide +kernel
    · rfl
    · have hrequests : ∀ r ∈ (sampleMoves ++ [Move.event (.evaluate Sample.request)]).filterMap
          Move.request?, r = Sample.request := by
        decide +kernel
      intro r hr s hs _ _ _
      rw [hrequests r hr, hrequests s hs]
      exact ⟨rfl, rfl⟩
  have hfit : Sample.request.defect? = none := by decide +kernel
  exact ⟨hrun, hfit, reply_transparent _ _ _ _ _ _ _ _ _ hrun rfl hfit⟩

end Deployment

end DecisionPoint
