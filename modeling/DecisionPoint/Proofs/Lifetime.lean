import DecisionPoint.Proofs.Choice
import DecisionPoint.Proofs.Documents
import DecisionPoint.Proofs.Time.TimeOfDay

/-!
How long an answer stands. Up to the end of its lifetime a verdict is what the
engine would decide again, as long as the local clock comes to neither end of a
range of the day that a visited policy has: a lifetime ends by the next bound of
the policies, but knows nothing of the times of day that their conditions look
at. The bounds must lie outside leap seconds, which count in the span up to a
bound though the clock may run over them.
-/

namespace DecisionPoint

open Time (Instant TimeOfDay)

namespace Policy

def timeRanges (p : Policy) : List TimeRange :=
  (Conditions.ofDocument (p.conditions.getD "")).time.elim [] fun w => w.allowed ++ w.denied

/-- Whether a policy is visited on the way to a decision: it contends, and the
policy that decides does not outrank it. -/
structure IsVisited (found : List Policy) (now : Instant) (r : Request) (t : TimeOfDay)
    (p : Policy) : Prop where
  contends : p.Contends found now
  inTime : ∀ q, Decides found now r t q → ¬ q.Outranks p

/-- Whether a local clock comes to an end of a range that a policy has. -/
def ReachesEdge (p : Policy) (minutes : Int32) (now later : Instant) : Prop :=
  ∃ range ∈ p.timeRanges,
    range.start.IsReached minutes now later ∨ range.stop.IsReached minutes now later

/-- Windows answer alike for two times that none of their ranges tells apart. -/
theorem permits_congr {w : TimeWindows} {t u : TimeOfDay}
    (h : ∀ range ∈ w.allowed ++ w.denied, range.contains u = range.contains t) :
    w.permits u = w.permits t := by
  have hallowed : (w.allowed.any fun range => range.contains u) =
      w.allowed.any fun range => range.contains t :=
    any_congr_of_mem fun range hrange => h range (List.mem_append_left _ hrange)
  have hdenied : (w.denied.any fun range => range.contains u) =
      w.denied.any fun range => range.contains t :=
    any_congr_of_mem fun range hrange => h range (List.mem_append_right _ hrange)
  rw [TimeWindows.permits, TimeWindows.permits, hallowed, hdenied]

/-- The conditions of a policy match a request alike at two instants between
which the local clock comes to no end of its ranges. -/
theorem applies_eq_of_not_reachesEdge {p : Policy} {r : Request} {minutes : Int32}
    {now later : Instant} (hle : now ≤ later) (h : ¬ p.ReachesEdge minutes now later) :
    p.applies r (.ofInstant later minutes) = p.applies r (.ofInstant now minutes) := by
  apply Conditions.matches_congr
  intro g hg
  cases g with
  | time windows =>
      obtain ⟨htime, -⟩ := Conditions.time_of_mem_groups hg
      apply permits_congr
      intro range hrange
      have hmem : range ∈ p.timeRanges := by
        rw [timeRanges, htime]
        exact hrange
      apply TimeRange.contains_eq_of_not_isReached hle
      · exact fun hstart => h ⟨range, hmem, .inl hstart⟩
      · exact fun hstop => h ⟨range, hmem, .inr hstop⟩
  | ip list => rfl
  | user list => rfl
  | resource lists => rfl

end Policy

/-! ## The same search -/

/-- The search stops at the first policy that applies. -/
theorem search_of_first {r : Request} {t : TimeOfDay} {front back : List Policy} {p : Policy}
    (hfront : ∀ q ∈ front, q.applies r t = false) (hp : p.applies r t = true) :
    search r t (front ++ p :: back) =
      (some p, front.map TraceEntry.skipped ++ [TraceEntry.decided p]) := by
  induction front with
  | nil => exact if_pos hp
  | cons q qs ih =>
      have hq : ¬ q.applies r t = true := by
        rw [hfront q List.mem_cons_self]
        exact Bool.false_ne_true
      rw [List.cons_append, search, if_neg hq,
        ih fun q' hq' => hfront q' (List.mem_cons_of_mem _ hq')]
      rfl

/-- A search depends on the policies that it visits alone. -/
theorem search_eq_of_visited {found : List Policy} {now : Instant} {r : Request} {t u : TimeOfDay}
    (h : ∀ p : Policy, p.IsVisited found now r t → p.applies r u = p.applies r t) :
    search r u (Policy.inForce (Policy.distinct found) now) =
      search r t (Policy.inForce (Policy.distinct found) now) := by
  have hcontends : ∀ p ∈ Policy.inForce (Policy.distinct found) now, p.Contends found now :=
    fun p hp => Policy.mem_inForce_distinct.mp hp
  have hranked := Policy.inForce_distinct_ranked found now
  -- Nothing is known of the policies behind the one that decides, and nothing is
  -- needed: neither search comes to them.
  rcases search_cases r t (Policy.inForce (Policy.distinct found) now) with
    ⟨front, p, back, hsplit, hfront, hp, hsearch⟩ | ⟨hnone, -⟩
  · obtain ⟨-, hunique⟩ := Policy.decides_of_first hsplit hfront hp
    rw [hsplit] at hcontends hranked
    have hfirst : ∀ q ∈ front, q.Outranks p := by
      intro q hq
      exact (List.pairwise_append.mp hranked).2.2 q hq p List.mem_cons_self
    have hvisited : ∀ q ∈ front, q.IsVisited found now r t := by
      intro q hq
      refine ⟨hcontends q (List.mem_append_left _ hq), ?_⟩
      intro winner hwinner
      rw [hunique winner hwinner]
      exact Policy.not_outranks_of_outranks (hfirst q hq)
    have hlast : p.IsVisited found now r t := by
      refine ⟨hcontends p (List.mem_append_right _ List.mem_cons_self), ?_⟩
      intro winner hwinner hself
      rw [hunique winner hwinner] at hself
      exact Policy.not_outranks_of_outranks hself hself
    rw [hsearch, hsplit]
    apply search_of_first
    · intro q hq
      rw [h q (hvisited q hq), hfront q hq]
    · rw [h p hlast, hp]
  · apply search_congr
    intro p hp
    apply h p
    refine ⟨hcontends p hp, ?_⟩
    intro winner hwinner
    have hidle := hnone winner (Policy.mem_inForce_distinct.mpr hwinner.contends)
    exact absurd hwinner.applies (Policy.not_matches_iff.mpr hidle)

/-! ## Up to the end of a lifetime -/

/-- Before the end of the lifetime of a verdict no bound disturbs the policies
it was decided from, leap seconds or not. -/
theorem undisturbed_of_lt_advance {c : Config} {r : Request} {policies : List Policy}
    {now later : Instant}
    (hbounds : ∀ p ∈ policies, ∀ bound ∈ p.bounds, bound.isPlain = true)
    (h : later < now.advance
      (Time.ofMinutes (lifetimeOf c r (Policy.nextChange policies now) now).toNat)) :
    Policy.Undisturbed policies now later := by
  apply Policy.undisturbed_of_nextChange
  intro change hchange
  obtain ⟨⟨p, hp, hbound⟩, hafter⟩ := Policy.nextChange_mem hchange
  obtain ⟨-, hdeadlines⟩ := lifetimeOf_bounds c r (Policy.nextChange policies now) now
  rcases hdeadlines change (by simp [hchange]) with hzero | hspan
  · rw [hzero, show Time.ofMinutes 0 = 0 from rfl, Instant.advance_zero] at h
    exact Instant.lt_trans h hafter
  · exact Instant.lt_of_lt_advance (hbounds p hp change hbound) hafter hspan h

namespace Deployment

/-- The result of evaluating a request with an empty cache at an instant. -/
def resultAt (c : Config) (capacity : Nat) (backend : Backend) (r : Request) (now : Instant) :
    Option (Except EngineError Verdict) :=
  ((start c capacity backend now 0).evaluation r).result

/-- A verdict stands up to the end of its lifetime, as long as the local clock
comes to no end of a range of a visited policy and no bound of a policy lies in
a leap second: an evaluation with an empty cache gives the same answer. -/
theorem answer_stands (c : Config) (capacity : Nat) (backend : Backend) {r : Request}
    (hfit : r.defect? = none) (now : Instant)
    (hplain : ∀ p ∈ backend.found r.tenant, ∀ bound ∈ p.bounds, bound.isPlain = true) :
    ∃ v minutes, resultAt c capacity backend r now = some (.ok v) ∧
      v.expirationMinutes = some minutes ∧
      ∀ later, now ≤ later → later < now.advance (Time.ofMinutes minutes.toNat) →
        (∀ p : Policy, p.IsVisited (backend.found r.tenant) now r (.ofInstant now c.utcOffset) →
          ¬ p.ReachesEdge c.utcOffset now later) →
        ∃ w, resultAt c capacity backend r later = some (.ok w) ∧ w.SameAnswer v := by
  have hresult : ∀ t : Instant, resultAt c capacity backend r t =
      some (.ok (rule c r (Policy.distinct (backend.found r.tenant)) t).verdict) :=
    fun t => evaluation_empty rfl ⟨rfl, rfl⟩ hfit
  refine ⟨_, _, hresult now, rule_expiration c r _ now, ?_⟩
  intro later hle hlives hedges
  refine ⟨_, hresult later, ?_⟩
  have hquiet := undisturbed_of_lt_advance
    (fun p hp => hplain p (Policy.mem_of_mem_distinct hp)) hlives
  apply rule_sameAnswer_of_search
  rw [Policy.inForce_eq hle hquiet]
  exact search_eq_of_visited fun p hp => Policy.applies_eq_of_not_reachesEdge hle (hedges p hp)

/-! ## A sample -/

/-- An engine that denies where no policy applies. -/
def sampleStrict : Config :=
  { Config.standard with noMatch := .deny }

/-- Conditions that hold in the first two minutes of a day. -/
def sampleHours : Conditions :=
  { Conditions.blank with
    time := some ⟨[⟨⟨0, 0, by decide, by decide⟩, ⟨120, 0, by decide, by decide⟩⟩], []⟩ }

/-- A policy that applies in the first two minutes of a day and ends four minutes
after the start of 1970. -/
def sampleEarly : Policy :=
  { Sample.policy with
    conditions := some sampleHours.toDocument
    effectiveFrom := none
    effectiveUntil := some (Instant.epoch.advance (Time.ofMinutes 4)) }

/-- A policy that ends in a leap second, six minutes after the start of 1970. -/
def sampleLeap : Policy :=
  { Sample.policy with
    effectiveFrom := none
    effectiveUntil := some ⟨359, 1600000000, .inr (by decide)⟩ }

section Single

variable {p : Policy} (htenant : p.tenant = none) (now : Instant)

include htenant

theorem resultAt_single :
    resultAt sampleStrict 4 (.memory ⟨[p], 0⟩) Sample.request now =
      some (.ok (rule sampleStrict Sample.request [p] now).verdict) := by
  have hfit : Sample.request.defect? = none := by decide +kernel
  have hfound : ∀ tenant, Policy.distinct ((Backend.memory ⟨[p], 0⟩).found tenant) = [p] := by
    intro tenant
    cases tenant <;>
      simp [Backend.found, Backend.findGlobal, Backend.findActive, PolicyStore.findGlobal,
        PolicyStore.findActive, PolicyStore.select, Policy.isGlobal, Policy.distinct,
        Policy.distinctBeyond, htenant]
  rw [resultAt, evaluation_empty rfl ⟨rfl, rfl⟩ hfit]
  simp only [start, hfound]

/-- The only policy of a store decides where it is in force and applies. -/
theorem resultAt_of_applies (hforce : Policy.inForce [p] now = [p])
    (happlies : p.applies Sample.request (.ofInstant now sampleStrict.utcOffset) = true) :
    ∃ v, resultAt sampleStrict 4 (.memory ⟨[p], 0⟩) Sample.request now = some (.ok v) ∧
      v.expirationMinutes =
        some (lifetimeOf sampleStrict Sample.request (Policy.nextChange [p] now) now) ∧
      v.SaysPolicy p p.outcome.ruleId := by
  refine ⟨_, resultAt_single htenant now, rule_expiration _ _ _ _, rule_saysPolicy ?_⟩
  rw [hforce, search, if_pos happlies]

/-- Where the only policy of a store is not in force or does not apply, the
settings decide. -/
theorem resultAt_of_idle
    (hidle : ∀ q ∈ Policy.inForce [p] now,
      q.applies Sample.request (.ofInstant now sampleStrict.utcOffset) = false) :
    ∃ v, resultAt sampleStrict 4 (.memory ⟨[p], 0⟩) Sample.request now = some (.ok v) ∧
      v.SaysNone sampleStrict := by
  refine ⟨_, resultAt_single htenant now, rule_saysNone ?_⟩
  rcases search_cases Sample.request (.ofInstant now sampleStrict.utcOffset)
    (Policy.inForce [p] now) with ⟨front, q, back, hsplit, -, hq, -⟩ | ⟨-, hsearch⟩
  · rw [hidle q (by rw [hsplit]; simp)] at hq
    cases hq
  · rw [hsearch]

end Single

/-- The conditions of the early policy are read back from their document. -/
theorem ofDocument_sampleHours : Conditions.ofDocument sampleHours.toDocument = sampleHours :=
  Conditions.ofDocument_toDocument (by decide)

theorem applies_sampleEarly (r : Request) (t : TimeOfDay) :
    sampleEarly.applies r t = sampleHours.matches r t :=
  congrArg (fun c : Conditions => c.matches r t) ofDocument_sampleHours

theorem timeRanges_sampleEarly : sampleEarly.timeRanges =
    [⟨⟨0, 0, by decide, by decide⟩, ⟨120, 0, by decide, by decide⟩⟩] :=
  congrArg (fun c : Conditions => c.time.elim [] fun w => w.allowed ++ w.denied)
    ofDocument_sampleHours

/-- The local clock comes to neither end of the two minutes in the first. -/
theorem not_reachesEdge_sampleEarly :
    ¬ sampleEarly.ReachesEdge 0 .epoch (Instant.epoch.advance (Time.ofMinutes 1)) := by
  have hoffset : TimeOfDay.offsetSeconds 0 = 0 := by decide
  have hlater : Instant.epoch.advance (Time.ofMinutes 1) = ⟨60, 0, .inl (by decide)⟩ := by decide
  rw [Policy.ReachesEdge, timeRanges_sampleEarly, hlater]
  simp only [List.mem_singleton, exists_eq_left, TimeOfDay.IsReached, hoffset, Instant.epoch,
    Time.secondsPerDay]
  rintro (⟨day, hafter, hbefore⟩ | ⟨day, hafter, hbefore⟩) <;> omega

theorem answer_stands_sample :
    Sample.request.defect? = none ∧
      (∀ p ∈ (Backend.memory ⟨[sampleEarly], 0⟩).found Sample.request.tenant,
        ∀ bound ∈ p.bounds, bound.isPlain = true) ∧
      ∃ v w,
        resultAt sampleStrict 4 (.memory ⟨[sampleEarly], 0⟩) Sample.request .epoch =
          some (.ok v) ∧
        v.policyKey = some sampleEarly.key ∧ v.expirationMinutes = some 4 ∧
        resultAt sampleStrict 4 (.memory ⟨[sampleEarly], 0⟩) Sample.request
          (Instant.epoch.advance (Time.ofMinutes 1)) = some (.ok w) ∧
        w.SameAnswer v := by
  have hfit : Sample.request.defect? = none := by decide +kernel
  have hplain : ∀ p ∈ (Backend.memory ⟨[sampleEarly], 0⟩).found Sample.request.tenant,
      ∀ bound ∈ p.bounds, bound.isPlain = true := by
    decide +kernel
  obtain ⟨v, minutes, hv, hminutes, hstands⟩ :=
    answer_stands sampleStrict 4 (.memory ⟨[sampleEarly], 0⟩) hfit .epoch hplain
  obtain ⟨v', hv', hlifetime, hsays⟩ := resultAt_of_applies (p := sampleEarly) rfl .epoch
    (by decide +kernel) (by rw [applies_sampleEarly]; decide +kernel)
  obtain rfl : v = v' := by simpa [hv] using hv'
  have hfour : lifetimeOf sampleStrict Sample.request
      (Policy.nextChange [sampleEarly] .epoch) .epoch = 4 := by
    decide +kernel
  rw [hfour] at hlifetime
  obtain rfl : minutes = 4 := by simpa [hminutes] using hlifetime
  have hedges : ∀ p : Policy, p.IsVisited ((Backend.memory ⟨[sampleEarly], 0⟩).found
      Sample.request.tenant) .epoch Sample.request (.ofInstant .epoch sampleStrict.utcOffset) →
      ¬ p.ReachesEdge sampleStrict.utcOffset .epoch (Instant.epoch.advance (Time.ofMinutes 1)) := by
    intro p hp
    have hmem : p ∈ [sampleEarly] := Backend.mem_of_mem_found hp.contends.mem
    rw [List.mem_singleton.mp hmem]
    exact not_reachesEdge_sampleEarly
  obtain ⟨w, hw, hsame⟩ := hstands _ (by decide) (by decide) hedges
  exact ⟨hfit, hplain, v, w, hv, hsays.policyKey, hlifetime, hw, hsame⟩

/-- Within the lifetime of a verdict the local clock comes to the end of a range,
or a leap second to the end of a policy, and the answer is another. -/
theorem answer_outlived :
    Sample.request.defect? = none ∧
      (∃ v w later,
        resultAt sampleStrict 4 (.memory ⟨[sampleEarly], 0⟩) Sample.request .epoch =
          some (.ok v) ∧
        v.expirationMinutes = some 4 ∧ Instant.epoch ≤ later ∧
        later < Instant.epoch.advance (Time.ofMinutes 4) ∧
        resultAt sampleStrict 4 (.memory ⟨[sampleEarly], 0⟩) Sample.request later =
          some (.ok w) ∧
        v.decision = .allow ∧ v.policyKey = some sampleEarly.key ∧
        w.decision = .deny ∧ w.policyKey = none) ∧
      ∃ v w now later,
        resultAt sampleStrict 4 (.memory ⟨[sampleLeap], 0⟩) Sample.request now = some (.ok v) ∧
        v.expirationMinutes = some 5 ∧ now ≤ later ∧
        later < now.advance (Time.ofMinutes 5) ∧
        resultAt sampleStrict 4 (.memory ⟨[sampleLeap], 0⟩) Sample.request later =
          some (.ok w) ∧
        v.decision = .allow ∧ v.policyKey = some sampleLeap.key ∧
        w.decision = .deny ∧ w.policyKey = none := by
  refine ⟨by decide +kernel, ?_, ?_⟩
  · obtain ⟨v, hv, hlifetime, hsays⟩ := resultAt_of_applies (p := sampleEarly) rfl .epoch
      (by decide +kernel) (by rw [applies_sampleEarly]; decide +kernel)
    obtain ⟨w, hw, hnone⟩ := resultAt_of_idle (p := sampleEarly) rfl
      (Instant.epoch.advance (Time.ofMinutes 3)) (by
        intro q hq
        rw [List.mem_singleton.mp (Policy.mem_of_mem_inForce hq), applies_sampleEarly]
        decide +kernel)
    have hfour : lifetimeOf sampleStrict Sample.request
        (Policy.nextChange [sampleEarly] .epoch) .epoch = 4 := by
      decide +kernel
    rw [hfour] at hlifetime
    exact ⟨v, w, _, hv, hlifetime, by decide, by decide, hw, hsays.decision_eq, hsays.policyKey,
      hnone.decision, hnone.policyKey⟩
  · obtain ⟨v, hv, hlifetime, hsays⟩ := resultAt_of_applies (p := sampleLeap) rfl
      ⟨60, 500000000, .inl (by decide)⟩ (by decide +kernel) (by decide +kernel)
    obtain ⟨w, hw, hnone⟩ := resultAt_of_idle (p := sampleLeap) rfl
      ⟨360, 200000000, .inl (by decide)⟩ (by decide +kernel)
    have hfive : lifetimeOf sampleStrict Sample.request (Policy.nextChange [sampleLeap]
        ⟨60, 500000000, .inl (by decide)⟩) ⟨60, 500000000, .inl (by decide)⟩ = 5 := by
      decide +kernel
    rw [hfive] at hlifetime
    exact ⟨v, w, _, _, hv, hlifetime, by decide, by decide, hw, hsays.decision_eq, hsays.policyKey,
      hnone.decision, hnone.policyKey⟩

end Deployment

end DecisionPoint
