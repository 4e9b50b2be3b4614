import DecisionPoint.Proofs.Run
import DecisionPoint.Proofs.Serving

/-!
What is served from the cache is fresh. Every entry was written by an earlier
evaluation of the run, and is served for no longer than it was written for. So
a verdict is never older than the settings let it be, and no policy it was
decided from has come into force or ended since; and where it was decided from
a kept list, the list was young enough when it was read.
-/

namespace DecisionPoint

open Time (Instant)

/-! ## The policies of a run -/

def Policy.hasPlainBounds (p : Policy) : Bool :=
  p.bounds.all Instant.isPlain

namespace Deployment

/-- A run from a state with an empty cache that leaves the writing of the cache
to the engine and the clock to the passing of time, and in which no instant
lies in a leap second. -/
structure TimedRun (d : Deployment) (ms : List Move) : Prop where
  timed : d.IsTimed
  empty : d.cache.entries = []
  ordinary : ∀ m ∈ ms, m.isOrdinary = true
  stored : ∀ p ∈ d.backend.policies, p.hasPlainBounds = true
  upserted : ∀ p, Move.event (.upsert p) ∈ ms → p.hasPlainBounds = true
  requested : ∀ m ∈ ms, ∀ r, m.request? = some r → r.expiresAt.all Instant.isPlain = true

theorem move_policies (executor : Executor) {d : Deployment} {m : Move} {p : Policy}
    (hp : p ∈ (d.after executor m.events).backend.policies) :
    p ∈ d.backend.policies ∨ m = .event (.upsert p) := by
  cases m with
  | event e =>
      obtain ⟨hsettled, -⟩ := step_state executor d e
      change p ∈ (d.step executor e).state.backend.policies at hp
      rw [hsettled.policies] at hp
      rcases happen_policies hp with hold | rfl
      · exact .inl hold
      · exact .inr rfl
  | pass span =>
      obtain ⟨dispatcher, hpass⟩ := after_pass executor d span
      rw [hpass] at hp
      exact .inl hp

/-- A policy behind the store was there from the start, or was put there on the way. -/
theorem run_policies (executor : Executor) {d : Deployment} {ms : List Move} {p : Policy}
    (hp : p ∈ (d.run executor ms).backend.policies) :
    p ∈ d.backend.policies ∨ Move.event (.upsert p) ∈ ms := by
  refine run_induction (motive := fun later => p ∈ later.backend.policies →
    p ∈ d.backend.policies ∨ Move.event (.upsert p) ∈ ms) executor .inl ?_ hp
  intro later m hm hearlier hthere
  rcases move_policies executor hthere with hold | rfl
  · exact hearlier hold
  · exact .inr hm

namespace TimedRun

variable {executor : Executor} {d : Deployment} {ms : List Move}

theorem front {before later : List Move} (h : TimedRun d (before ++ later)) :
    TimedRun d before where
  timed := h.timed
  empty := h.empty
  ordinary := fun m hm => h.ordinary m (List.mem_append_left _ hm)
  stored := h.stored
  upserted := fun p hp => h.upserted p (List.mem_append_left _ hp)
  requested := fun m hm => h.requested m (List.mem_append_left _ hm)

theorem upTo (h : TimedRun d ms) {before : List Move} {e : Event} {r : Request}
    (hoccurs : Occurs ms before e r) : TimedRun d (before ++ [.event e]) := by
  obtain ⟨later, rfl⟩ := hoccurs.place
  rw [List.append_cons] at h
  exact h.front

theorem isTimed (h : TimedRun d ms) (executor : Executor) : (d.run executor ms).IsTimed :=
  (run_later executor h.timed ms h.ordinary).1

theorem config (h : TimedRun d ms) (executor : Executor) : (d.run executor ms).config = d.config :=
  (run_later executor h.timed ms h.ordinary).2.config

theorem later {before later : List Move} (h : TimedRun d (before ++ later)) :
    Later (d.run executor before) (d.run executor (before ++ later)) := by
  rw [run_append]
  refine (run_later executor (h.front.isTimed executor) later ?_).2
  intro m hm
  exact h.ordinary m (List.mem_append_right _ hm)

/-- On a timed run no policy that the store finds is bounded by a leap second. -/
theorem plainBounds (h : TimedRun d ms) {tenant : Option String} {p : Policy}
    (hp : p ∈ Policy.distinct ((d.run executor ms).backend.found tenant)) :
    ∀ bound ∈ p.bounds, bound.isPlain = true := by
  have hbehind := Backend.mem_of_mem_found (Policy.mem_of_mem_distinct hp)
  have hplain : p.hasPlainBounds = true := by
    rcases run_policies executor hbehind with hstored | hupserted
    · exact h.stored p hstored
    · exact h.upserted p hupserted
  exact List.all_eq_true.mp hplain

/-- An entry that lives was written by an evaluation of the run, and the time
since is within the span that it was written for. -/
theorem entry_written (h : TimedRun d ms) {x : CacheEntry}
    (hx : x ∈ (d.run executor ms).cache.entries)
    (hlive : (d.run executor ms).elapsed < x.expiresAt) :
    ∃ before e r, Occurs ms before e r ∧ Writes (d.run executor before) r x ∧
      TimedRun d before ∧ (d.run executor before).clock.count ≤ (d.run executor ms).clock.count ∧
      (d.run executor ms).clock.count - (d.run executor before).clock.count +
        ((d.run executor before).evaluation r).state.elapsed < x.expiresAt := by
  have hspares : ∀ m ∈ ms, m.sparesCache = true :=
    fun m hm => Move.sparesCache_of_isOrdinary (h.ordinary m hm)
  rcases run_sparing executor hspares hx with hold | ⟨before, e, r, hoccurs, hwrites⟩
  · rw [h.empty] at hold
    cases hold
  · obtain ⟨later, rfl⟩ := hoccurs.place
    have hordinary : e.isOrdinary = true := h.ordinary (.event e) hoccurs.mem
    have hclock : (d.run executor (before ++ [.event e])).clock = (d.run executor before).clock := by
      rw [run_append]
      exact (step_progress executor hordinary).clock (h.front.isTimed executor).tick
    have hspent : ((d.run executor before).evaluation r).state.elapsed ≤
        (d.run executor (before ++ [.event e])).elapsed := by
      rw [run_append, ← (happen_request hoccurs.request hoccurs.fit).1]
      exact (step_state executor (d.run executor before) e).1.elapsed
    have hsplit : before ++ Move.event e :: later = before ++ [Move.event e] ++ later := by
      rw [List.append_assoc]
      rfl
    have hlater : Later (d.run executor (before ++ [Move.event e]))
        (d.run executor (before ++ Move.event e :: later)) := by
      rw [hsplit] at h ⊢
      exact h.later
    have hpast := hlater.clock
    have hage := hlater.age
    rw [hclock] at hpast hage
    refine ⟨before, e, r, hoccurs, hwrites, h.front, hpast, ?_⟩
    omega

end TimedRun

/-! ## Candidate lists -/

/-- The store was asked for the candidates of a scope by an evaluation of a
run, at some instant, and these are what it found. -/
def FoundIn (executor : Executor) (d : Deployment) (ms : List Move) (tenant : Option String)
    (policies : List Policy) (asked : Instant) : Prop :=
  ∃ before e r, Occurs ms before e r ∧ (d.run executor before).clock = asked ∧
    Queried ((d.run executor before).step executor e).transcript tenant asked
      ((d.run executor before).backend.found tenant) ∧
    policies = Policy.distinct ((d.run executor before).backend.found tenant)

/-- A list of candidates was found by the store in a run, less than its time to
live ago, and no bound of its policies has been passed since. -/
structure FreshList (executor : Executor) (d : Deployment) (ms : List Move)
    (tenant : Option String) (policies : List Policy) (asked : Instant) : Prop where
  found : FoundIn executor d ms tenant policies asked
  past : asked ≤ (d.run executor ms).clock
  young : (d.run executor ms).clock.since asked < Time.ofMinutes d.config.candidateTtl.toNat
  undisturbed : Policy.Undisturbed policies asked (d.run executor ms).clock

theorem candidateTtl_le (c : Config) (cap : Option Nat) :
    DecisionCache.candidateTtl c cap ≤ Time.ofMinutes c.candidateTtl.toNat := by
  cases cap with
  | none => exact Nat.le_refl _
  | some span => exact Nat.min_le_right _ _

/-- Up to the end of its time to live no bound disturbs a kept list. -/
theorem undisturbed_of_candidateTtl {c : Config} {policies : List Policy} {now later : Instant}
    (hnow : now.isPlain = true) (hlater : later.isPlain = true)
    (hbounds : ∀ p ∈ policies, ∀ bound ∈ p.bounds, bound.isPlain = true)
    (hlives : later.count - now.count <
      DecisionCache.candidateTtl c (Engine.candidateCap policies now)) :
    Policy.Undisturbed policies now later := by
  refine undisturbed_of_span hnow hlater hbounds ?_ hlives
  intro change hchange
  obtain ⟨hsince, hafter⟩ := nextChange_since hnow hbounds hchange
  have hcap : Engine.candidateCap policies now = some (change.since now).toNat := by
    rw [Engine.candidateCap, hchange, Option.bind_some]
    exact if_neg (by omega)
  have hmin : DecisionCache.candidateTtl c (some (change.since now).toNat) ≤
      (change.since now).toNat := Nat.min_le_left _ _
  rw [hcap]
  omega

namespace TimedRun

variable {executor : Executor} {d : Deployment} {ms : List Move}

/-- A kept list that lives is fresh. -/
theorem freshList (h : TimedRun d ms) {x : CacheEntry} {tenant : Option String}
    {policies : List Policy} (hx : x ∈ (d.run executor ms).cache.entries)
    (hlive : (d.run executor ms).elapsed < x.expiresAt) (hkey : x.key = Key.candidates tenant)
    (htext : Policy.listOfText? x.value = some policies) :
    ∃ asked, FreshList executor d ms tenant policies asked := by
  obtain ⟨before, e, r, hoccurs, hwrites, hbefore, hpast, hspan⟩ := h.entry_written hx hlive
  have hplain := (hbefore.isTimed executor).plain
  have hnow := (h.isTimed executor).plain
  cases hwrites with
  | decision loaded hkept hloaded hsource hresult =>
      exact absurd hkey (Key.decision_ne_candidates r tenant)
  | candidates hqueried =>
      obtain rfl := Key.candidates_scope hkey
      obtain rfl := Policy.listOfText?_eq htext
      have hbounds : ∀ p ∈ Policy.distinct ((d.run executor before).backend.found r.tenant),
          ∀ bound ∈ p.bounds, bound.isPlain = true := fun p hp => hbefore.plainBounds hp
      generalize hfound : Policy.distinct ((d.run executor before).backend.found r.tenant) =
        policies at *
      have hspent : (d.run executor ms).clock.count - (d.run executor before).clock.count <
          DecisionCache.candidateTtl (d.run executor before).config
            (Engine.candidateCap policies (d.run executor before).clock) := by
        simp only [candidateEntry] at hspan
        omega
      have hle := candidateTtl_le (d.run executor before).config
        (Engine.candidateCap policies (d.run executor before).clock)
      rw [(happen_request hoccurs.request hoccurs.fit).2.symm] at hqueried
      refine ⟨_, ⟨before, e, r, hoccurs, rfl, hqueried, hfound.symm⟩, ?_, ?_, ?_⟩
      · rw [Instant.le_iff_count hplain hnow]
        exact hpast
      · rw [Instant.since_eq hnow hplain, ← hbefore.config executor]
        omega
      · exact undisturbed_of_candidateTtl hplain hnow hbounds hspent

end TimedRun

/-! ## Verdicts -/

/-- A verdict was computed by an evaluation of a run, `before` which it was not
kept, for a request with the same key: less than its time to live ago, with the
request still valid and no bound of the policies passed since. The queries
behind it were asked no longer ago than both times to live together. -/
structure FreshVerdict (executor : Executor) (d : Deployment) (ms : List Move) (r : Request)
    (v : Verdict) (before : List Move) (e : Event) (r₀ : Request) (policies : List Policy)
    (asked : Instant) : Prop where
  occurs : Occurs ms before e r₀
  key : Key.decision r₀ = Key.decision r
  unkept : (d.run executor before).kept? r₀ = none
  loaded : (d.run executor before).loaded? r₀ = some (.ok policies)
  ruled : v = (rule d.config r₀ policies (d.run executor before).clock).verdict
  answered : ((d.run executor before).evaluation r₀).result = some (.ok v)
  past : (d.run executor before).clock ≤ (d.run executor ms).clock
  young : (d.run executor ms).clock.since (d.run executor before).clock <
    Time.ofMinutes d.config.defaultTtl.toNat
  valid : ∀ expiry, r₀.expiresAt = some expiry → (d.run executor ms).clock < expiry
  undisturbed : Policy.Undisturbed policies (d.run executor before).clock
    (d.run executor ms).clock
  found : FoundIn executor d (before ++ [.event e]) r₀.tenant policies asked
  asked_past : asked ≤ (d.run executor before).clock
  recent : (d.run executor ms).clock.since asked <
    Time.ofMinutes d.config.candidateTtl.toNat + Time.ofMinutes d.config.defaultTtl.toNat

theorem FoundIn.append {executor : Executor} {d : Deployment} {ms : List Move}
    {tenant : Option String} {policies : List Policy} {asked : Instant}
    (h : FoundIn executor d ms tenant policies asked) (more : List Move) :
    FoundIn executor d (ms ++ more) tenant policies asked := by
  obtain ⟨before, e, r, hoccurs, hrest⟩ := h
  exact ⟨before, e, r, hoccurs.append more, hrest⟩

theorem ofMinutes_mono {a b : Nat} (h : a ≤ b) : Time.ofMinutes a ≤ Time.ofMinutes b :=
  Nat.mul_le_mul_right _ (Nat.mul_le_mul_right _ h)

/-- The lifetime of a verdict ends before its request expires. -/
theorem lt_expiry_of_lifetime {c : Config} {r : Request} {change : Option Instant}
    {now later expiry : Instant} (hnow : now.isPlain = true) (hlater : later.isPlain = true)
    (hexpiry : expiry.isPlain = true) (hpast : now.count ≤ later.count)
    (hlives : later.count - now.count < Time.ofMinutes (lifetimeOf c r change now).toNat)
    (hexpires : r.expiresAt = some expiry) : later < expiry := by
  obtain ⟨-, hdeadlines⟩ := lifetimeOf_bounds c r change now
  rw [Instant.lt_iff_count hlater hexpiry]
  rcases hdeadlines expiry (by simp [hexpires]) with hzero | hspan
  · rw [hzero] at hlives
    simp only [Time.ofMinutes] at hlives
    omega
  · rw [Instant.since_eq hexpiry hnow] at hspan
    omega

namespace TimedRun

variable {executor : Executor} {d : Deployment} {ms : List Move}

theorem plain_of_foundIn (h : TimedRun d ms) {tenant : Option String} {policies : List Policy}
    {asked : Instant} (hfound : FoundIn executor d ms tenant policies asked) :
    asked.isPlain = true ∧ ∀ p ∈ policies, ∀ bound ∈ p.bounds, bound.isPlain = true := by
  obtain ⟨before, e, r, ⟨⟨later, rfl⟩, -, -⟩, rfl, -, rfl⟩ := hfound
  exact ⟨(h.front.isTimed executor).plain, fun p hp => h.front.plainBounds hp⟩

/-- The candidates of an evaluation were found by the store in it, or earlier
and no longer ago than a list is kept. -/
theorem found_of_source (h : TimedRun d ms) {e : Event} {r : Request}
    (hrequest : e.request? = some r) (hfit : r.defect? = none) {policies : List Policy}
    (hsource : Source (d.run executor ms) r.tenant (d.run executor ms).clock
      ((d.run executor ms).evaluation r).transcript policies) :
    ∃ asked, FoundIn executor d (ms ++ [.event e]) r.tenant policies asked ∧
      asked ≤ (d.run executor ms).clock ∧
      (d.run executor ms).clock.since asked ≤ Time.ofMinutes d.config.candidateTtl.toNat := by
  cases hsource with
  | store hlist hqueried =>
      have hplain := (h.isTimed executor).plain
      rw [← (happen_request hrequest hfit).2] at hqueried
      refine ⟨_, ⟨ms, e, r, ⟨⟨[], rfl⟩, hrequest, hfit⟩, rfl, hqueried, hlist⟩,
        Instant.le_refl _, ?_⟩
      rw [Instant.since_eq hplain hplain]
      omega
  | cache hlive =>
      obtain ⟨x, hx, hkey, hlives, htext⟩ := hlive
      obtain ⟨asked, hfresh⟩ := h.freshList hx hlives hkey htext
      exact ⟨asked, hfresh.found.append _, hfresh.past, Int.le_of_lt hfresh.young⟩

/-- A kept verdict that lives is fresh. -/
theorem freshVerdict (h : TimedRun d ms) {x : CacheEntry} {r : Request} {v : Verdict}
    (hx : x ∈ (d.run executor ms).cache.entries)
    (hlive : (d.run executor ms).elapsed < x.expiresAt) (hkey : x.key = Key.decision r)
    (htext : Verdict.ofText? x.value = some v) :
    ∃ before e r₀ policies asked,
      FreshVerdict executor d ms r v before e r₀ policies asked := by
  obtain ⟨before, e, r₀, hoccurs, hwrites, hbefore, hpast, hspan⟩ := h.entry_written hx hlive
  have hthen := (hbefore.isTimed executor).plain
  have hnow := (h.isTimed executor).plain
  cases hwrites with
  | candidates hqueried => exact absurd hkey.symm (Key.decision_ne_candidates r r₀.tenant)
  | decision policies hkept hloaded hsource hresult =>
      obtain ⟨asked, hfound, hasked, hage⟩ :=
        hbefore.found_of_source hoccurs.request hoccurs.fit hsource
      obtain ⟨hquestion, hbounds⟩ := (h.upTo hoccurs).plain_of_foundIn hfound
      obtain rfl := Verdict.ofText?_eq (by rw [rule_timestamp, truncateToMillis_idem]) htext
      have hlives : (d.run executor ms).clock.count - (d.run executor before).clock.count <
          Time.ofMinutes (lifetimeOf d.config r₀
            (Policy.nextChange policies (d.run executor before).clock)
            (d.run executor before).clock).toNat := by
        simp only [decisionEntry, DecisionCache.lifetime, rule_expiration, Option.getD_some,
          hbefore.config executor] at hspan
        omega
      have hyoung : Time.ofMinutes (lifetimeOf d.config r₀
          (Policy.nextChange policies (d.run executor before).clock)
          (d.run executor before).clock).toNat ≤ Time.ofMinutes d.config.defaultTtl.toNat :=
        ofMinutes_mono (lifetimeOf_bounds _ _ _ _).1
      rw [Instant.since_eq hthen hquestion] at hage
      refine ⟨before, e, r₀, policies, asked, ?_⟩
      constructor
      case occurs => exact hoccurs
      case key => exact hkey
      case unkept => exact hkept
      case loaded => exact hloaded
      case ruled => rw [hbefore.config executor]
      case answered => exact hresult
      case past =>
        rw [Instant.le_iff_count hthen hnow]
        exact hpast
      case young =>
        rw [Instant.since_eq hnow hthen]
        omega
      case valid =>
        intro expiry hexpires
        have hexpiry : expiry.isPlain = true := by
          have hrequested := h.requested _ hoccurs.mem r₀ hoccurs.request
          rw [hexpires] at hrequested
          exact hrequested
        exact lt_expiry_of_lifetime hthen hnow hexpiry hpast hlives hexpires
      case undisturbed => exact undisturbed_of_lifetime hthen hnow hbounds hlives
      case found => exact hfound
      case asked_past => exact hasked
      case recent =>
        rw [Instant.since_eq hnow hquestion]
        omega

end TimedRun

/-- In a run from an empty cache, a verdict that is served for a request is
fresh, and so is a candidate list that it is decided from. -/
theorem served_fresh (executor : Executor) {d : Deployment} {ms : List Move}
    (hrun : TimedRun d ms) {r : Request} (hfit : r.defect? = none) :
    (∀ v, (d.run executor ms).kept? r = some v →
      ((d.run executor ms).evaluation r).result = some (.ok v) ∧
        ∃ before e r₀ policies asked,
          FreshVerdict executor d ms r v before e r₀ policies asked) ∧
    ∀ policies, ((d.run executor ms).asked r).ticked.keptList? r.tenant = some policies →
      (d.run executor ms).loaded? r = some (.ok policies) ∧
        ∃ asked, FreshList executor d ms r.tenant policies asked := by
  constructor
  · intro v hkept
    obtain ⟨x, hx, hkey, hlive, htext⟩ := live_of_kept? hkept
    exact ⟨result_of_kept? hfit hkept, hrun.freshVerdict hx hlive hkey htext⟩
  · intro policies hkept
    refine ⟨loaded_of_keptList? hkept, ?_⟩
    obtain ⟨-, -, -, hlist⟩ := ((d.run executor ms).asked r).ticked.hold_keptCandidates _ r.tenant
    obtain ⟨x, hx, hkey, hlive, htext⟩ := hlist policies hkept
    obtain ⟨hworld, hentries⟩ := (d.run executor ms).asked_ticked r
    exact hrun.freshList (hentries x hx) (Nat.lt_of_le_of_lt hworld.elapsed hlive) hkey htext

/-! ## Up to the end of a lifetime -/

/-- A computed verdict is served until its lifetime ends, so freshness promises
no less than the settings let it. -/
theorem kept_after_pass (executor : Executor) {d : Deployment} {r s : Request}
    (hserves : d.CacheServes (Key.decision r)) (hfit : r.defect? = none) (hkept : d.kept? r = none) {v : Verdict}
    (hresult : (d.evaluation r).result = some (.ok v)) (hwritable : v.isWritable = true)
    (hkey : Key.decision r = Key.decision s) {span : Nat}
    (hspan : span + (d.cacheFaults (Key.decision r)).delay <
      Time.ofMinutes (DecisionCache.lifetime d.config v).toNat) :
    (d.run executor [.event (.evaluate r), .pass span]).kept? s = some v := by
  obtain ⟨hworld, -⟩ := d.evaluation_fit hfit
  obtain ⟨dispatcher, hstep⟩ := after_event executor d (.evaluate r)
  rw [(happen_request rfl hfit).1] at hstep
  generalize hstate : (d.evaluation r).state = state at *
  obtain ⟨dispatcher', hpass⟩ := after_pass executor { state with dispatcher } span
  rw [run_cons, hstep, run_cons, hpass, run_nil]
  refine kept_after hserves hfit hkept hresult hwritable hkey ?_ ?_ ?_ ?_ ?_
  · exact hworld.config
  · exact hworld.cacheFaults
  · rw [hstate]
  · rw [hstate]
    exact Nat.le_add_right _ _
  · rw [hstate]
    simp only
    omega

def sampleWait : List Move :=
  [.event (.evaluate Sample.request), .pass (Time.ofMinutes 4)]

theorem served_fresh_sample :
    TimedRun (Sample.deployment 0) sampleWait ∧ Sample.request.defect? = none ∧
      (∃ v before e r₀ policies asked, FreshVerdict .lenient (Sample.deployment 0) sampleWait
        Sample.request v before e r₀ policies asked) ∧
      ∀ policies, (((Sample.deployment 0).run .lenient sampleWait).asked
          Sample.request).ticked.keptList? Sample.request.tenant = some policies →
        ∃ asked, FreshList .lenient (Sample.deployment 0) sampleWait Sample.request.tenant
          policies asked := by
  have hrun : TimedRun (Sample.deployment 0) sampleWait := by
    constructor
    case timed => exact ⟨rfl, rfl⟩
    case empty => rfl
    case ordinary => decide +kernel
    case stored => decide +kernel
    case upserted =>
      intro p hp
      simp [sampleWait] at hp
    case requested =>
      intro m hm r hr
      simp only [sampleWait, List.mem_cons, List.not_mem_nil, or_false] at hm
      rcases hm with rfl | rfl
      · cases hr
        rfl
      · cases hr
  have hfit : Sample.request.defect? = none := by decide +kernel
  obtain ⟨hverdict, hlist⟩ := served_fresh .lenient hrun hfit
  have hkept : ∃ v, ((Sample.deployment 0).run .lenient sampleWait).kept? Sample.request =
      some v := by
    have hresult := evaluation_empty (d := Sample.deployment 0) rfl ⟨rfl, rfl⟩ hfit
    refine ⟨_, kept_after_pass .lenient ⟨rfl, rfl, Nat.zero_le _, by decide⟩ hfit
      (kept?_empty rfl _) hresult ?_ rfl ?_⟩
    · rw [Verdict.isWritable, rule_timestamp]
      decide +kernel
    · rw [DecisionCache.lifetime, rule_expiration]
      decide +kernel
  obtain ⟨v, hv⟩ := hkept
  exact ⟨hrun, hfit, ⟨v, (hverdict v hv).2⟩, fun policies hpolicies => (hlist policies hpolicies).2⟩

end Deployment

end DecisionPoint
