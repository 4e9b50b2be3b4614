import DecisionPoint.Evaluation
import DecisionPoint.Proofs.Time.Instant

/-!
How long a verdict stands. The policies in force are the same at two instants
that no bound separates, and conditions without a time group look at the
request alone; so a verdict is what would be decided again up to the next
bound, which its lifetime never passes.
-/

namespace DecisionPoint

open Time (Instant TimeOfDay)

/-! ## The policies in force -/

namespace Policy

/-- Whether no policy takes effect or ends after `now` up to and including
`later`. -/
def Undisturbed (policies : List Policy) (now later : Instant) : Prop :=
  ∀ p ∈ policies, ∀ bound ∈ p.bounds, ¬ (now < bound ∧ bound ≤ later)

theorem undisturbed_self (policies : List Policy) (now : Instant) :
    Undisturbed policies now now := by
  intro p hp bound hbound ⟨hafter, hbefore⟩
  exact hbefore hafter

theorem mem_bounds {p : Policy} {bound : Instant} :
    bound ∈ p.bounds ↔ p.effectiveFrom = some bound ∨ p.effectiveUntil = some bound := by
  simp [bounds, Option.mem_toList]

/-- A policy changes between being in force and not at its bounds only. -/
theorem isEffectiveAt_eq {p : Policy} {now later : Instant} (hle : now ≤ later)
    (h : ∀ bound ∈ p.bounds, ¬ (now < bound ∧ bound ≤ later)) :
    p.isEffectiveAt later = p.isEffectiveAt now := by
  have hfrom : (p.effectiveFrom.all fun t => t ≤ later) = p.effectiveFrom.all fun t => t ≤ now := by
    cases hbound : p.effectiveFrom with
    | none => rfl
    | some bound =>
        have hout := h bound (mem_bounds.mpr (.inl hbound))
        simp only [Option.all_some, decide_eq_decide]
        constructor
        · intro hlater hnow
          exact hout ⟨hnow, hlater⟩
        · intro hnow
          exact Instant.le_trans hnow hle
  have huntil : (p.effectiveUntil.all fun t => later < t) =
      p.effectiveUntil.all fun t => now < t := by
    cases hbound : p.effectiveUntil with
    | none => rfl
    | some bound =>
        have hout := h bound (mem_bounds.mpr (.inr hbound))
        simp only [Option.all_some, decide_eq_decide]
        constructor
        · intro hlater
          exact Instant.lt_of_le_of_lt hle hlater
        · intro hnow
          apply Decidable.byContradiction
          intro hlater
          exact hout ⟨hnow, hlater⟩
  rw [isEffectiveAt, isEffectiveAt, hfrom, huntil]

/-- Between two instants that no bound separates, the policies in force do not
change. -/
theorem inForce_eq {policies : List Policy} {now later : Instant} (hle : now ≤ later)
    (h : Undisturbed policies now later) : inForce policies later = inForce policies now := by
  have hfilter : (policies.filter fun p => p.isCandidate && p.isEffectiveAt later) =
      policies.filter fun p => p.isCandidate && p.isEffectiveAt now := by
    apply List.filter_congr
    intro p hp
    rw [isEffectiveAt_eq hle (h p hp)]
  rw [inForce, inForce, hfilter]

theorem mem_changes {policies : List Policy} {now bound : Instant} :
    bound ∈ (policies.flatMap bounds).filter (fun t => now < t) ↔
      (∃ p ∈ policies, bound ∈ p.bounds) ∧ now < bound := by
  simp [List.mem_filter, List.mem_flatMap]

/-- Up to the next change no policy takes effect or ends. -/
theorem undisturbed_of_nextChange {policies : List Policy} {now later : Instant}
    (h : ∀ change, nextChange policies now = some change → later < change) :
    Undisturbed policies now later := by
  intro p hp bound hbound ⟨hafter, hbefore⟩
  have hmem := mem_changes.mpr ⟨⟨p, hp, hbound⟩, hafter⟩
  cases hnext : nextChange policies now with
  | none =>
      rw [nextChange] at hnext
      rw [Instant.earliest?_eq_none hnext] at hmem
      cases hmem
  | some change =>
      have hfirst : change ≤ bound := Instant.earliest?_le hnext hmem
      exact hbefore (Instant.lt_of_lt_of_le (h change hnext) hfirst)

theorem nextChange_mem {policies : List Policy} {now change : Instant}
    (h : nextChange policies now = some change) :
    (∃ p ∈ policies, change ∈ p.bounds) ∧ now < change :=
  mem_changes.mp (Instant.mem_of_earliest? h)

end Policy

/-! ## The lifetime of a verdict -/

theorem toNat_min (a b : UInt32) : (min a b).toNat = min a.toNat b.toNat := by
  change (if a ≤ b then a else b).toNat = _
  split
  · rename_i hle
    rw [UInt32.le_iff_toNat_le] at hle
    omega
  · rename_i hlt
    rw [UInt32.le_iff_toNat_le] at hlt
    omega

def minutesUntil (now deadline : Instant) : Nat :=
  (Instant.wholeMinutes (deadline.since now)).toNat

/-- Rounding toward zero leaves no minute of a negative span, so its sign matters at
zero minutes alone. -/
theorem ofMinutes_le_iff {now deadline : Instant} {n : Nat}
    (h : 0 < n ∨ 0 ≤ deadline.since now) :
    (Time.ofMinutes n : Int) ≤ deadline.since now ↔ n ≤ minutesUntil now deadline := by
  unfold minutesUntil Instant.wholeMinutes
  simp only [Time.ofMinutes, Time.nanosPerSecond, Int.cast_ofNat_Int]
  generalize deadline.since now = span at *
  rcases Int.le_total 0 span with hforth | hback
  · rw [Int.tdiv_eq_ediv_of_nonneg hforth]
    omega
  · have hopposite : 0 ≤ (-span).tdiv (60 * 1000000000) :=
      Int.tdiv_nonneg (by omega) (by decide)
    rw [Int.neg_tdiv] at hopposite
    omega

/-- A deadline caps a lifetime at the minutes that end by it. -/
theorem toNat_cappedBy (now deadline : Instant) (ttl : UInt32) :
    (cappedBy now ttl deadline).toNat = min ttl.toNat (minutesUntil now deadline) := by
  have hbound := ttl.toNat_lt_size
  simp only [cappedBy, minutesUntil]
  split
  · rw [UInt32.toNat_zero]
    omega
  · rw [toNat_min, UInt32.toNat_ofNat', Nat.mod_eq_of_lt]
    all_goals
      simp only [UInt32.size] at *
      omega

/-- A number of minutes is within a lifetime exactly if the settings and every deadline
leave that many. -/
theorem le_foldl_cappedBy_iff (now : Instant) (deadlines : List Instant) (ttl : UInt32) (n : Nat) :
    n ≤ (deadlines.foldl (cappedBy now) ttl).toNat ↔
      n ≤ ttl.toNat ∧ ∀ deadline ∈ deadlines, n ≤ minutesUntil now deadline := by
  induction deadlines generalizing ttl with
  | nil => simp
  | cons first rest ih =>
      rw [List.foldl_cons, ih, toNat_cappedBy, Nat.le_min, List.forall_mem_cons, and_assoc]

/-- A verdict lives no longer than the settings say, and comes to its end
before the request does and before the next change. -/
theorem lifetimeOf_bounds (c : Config) (r : Request) (change : Option Instant) (now : Instant) :
    (lifetimeOf c r change now).toNat ≤ c.defaultTtl.toNat ∧
      ∀ deadline ∈ r.expiresAt.toList ++ change.toList,
        (lifetimeOf c r change now).toNat = 0 ∨
          (Time.ofMinutes (lifetimeOf c r change now).toNat : Int) ≤ deadline.since now := by
  obtain ⟨hle, hends⟩ := (le_foldl_cappedBy_iff now (r.expiresAt.toList ++ change.toList)
    c.defaultTtl _).mp (Nat.le_refl _)
  refine ⟨hle, ?_⟩
  intro deadline hmem
  apply (Nat.eq_zero_or_pos _).imp_right
  intro hpos
  exact (ofMinutes_le_iff (.inl hpos)).mpr (hends deadline hmem)

/-! ## What conditions look at -/

theorem any_congr_of_mem {xs : List α} {f g : α → Bool} (h : ∀ x ∈ xs, f x = g x) :
    xs.any f = xs.any g := by
  induction xs with
  | nil => rfl
  | cons x xs ih =>
      rw [List.any_cons, List.any_cons, h x List.mem_cons_self,
        ih fun y hy => h y (List.mem_cons_of_mem _ hy)]

theorem Conditions.matches_congr {c : Conditions} {r s : Request} {t u : TimeOfDay}
    (h : ∀ g ∈ c.groups, g.passes r t = g.passes s u) : c.matches r t = c.matches s u := by
  unfold Conditions.matches
  generalize c.groups = groups at *
  cases groups with
  | nil => rfl
  | cons first rest =>
      cases c.mode with
      | any => exact any_congr_of_mem h
      | all =>
          simp only [List.all_eq_not_any_not]
          rw [any_congr_of_mem fun g hg => congrArg (!·) (h g hg)]

/-- The parts of a request that conditions look at are the same. -/
structure Request.SameSubject (r s : Request) : Prop where
  resourceType : r.resourceType = s.resourceType
  resourceId : r.resourceId = s.resourceId
  user : r.user = s.user
  clientIp : r.clientIp = s.clientIp

/-- A time group that counts is the time group of its conditions, and has
ranges. -/
theorem Conditions.time_of_mem_groups {c : Conditions} {windows : TimeWindows}
    (h : .time windows ∈ c.groups) : c.time = some windows ∧ windows.isEmpty = false := by
  simpa [Conditions.groups, Option.filter_eq_some_iff] using h

/-- Groups other than the one of times see nothing but the subject of a request. -/
theorem ConditionGroup.passes_congr {r s : Request} (hsame : r.SameSubject s)
    {g : ConditionGroup} {t u : TimeOfDay} (h : t = u ∨ ∀ windows, g ≠ .time windows) :
    g.passes r t = g.passes s u := by
  cases g with
  | time windows =>
      rcases h with rfl | hnot
      · rfl
      · exact absurd rfl (hnot windows)
  | ip list => simp only [passes, hsame.clientIp]
  | user list => simp only [passes, hsame.user]
  | resource lists => simp only [passes, hsame.resourceType, hsame.resourceId]

namespace Policy

/-- Whether the conditions of a policy do without the time of day. -/
def isTimeless (p : Policy) : Bool :=
  (Conditions.ofDocument (p.conditions.getD "")).time.all (·.isEmpty)

theorem groups_of_isTimeless {p : Policy} (h : p.isTimeless = true) :
    ∀ g ∈ (Conditions.ofDocument (p.conditions.getD "")).groups, ∀ windows,
      g ≠ .time windows := by
  intro g hg windows heq
  subst heq
  obtain ⟨htime, hsome⟩ := Conditions.time_of_mem_groups hg
  rw [isTimeless, htime, Option.all_some, hsome] at h
  cases h

theorem applies_congr {p : Policy} {r s : Request} (hsame : r.SameSubject s) {t u : TimeOfDay}
    (h : t = u ∨ p.isTimeless = true) : p.applies r t = p.applies s u := by
  apply Conditions.matches_congr
  intro g hg
  apply ConditionGroup.passes_congr hsame
  exact h.imp id fun htimeless => groups_of_isTimeless htimeless g hg

end Policy

/-! ## The same answer -/

/-- Two verdicts say the same but for their timestamps and lifetimes. -/
structure Verdict.SameAnswer (v w : Verdict) : Prop where
  decision : v.decision = w.decision
  reason : v.reason = w.reason
  policyKey : v.policyKey = w.policyKey
  policyName : v.policyName = w.policyName
  trace : v.trace = w.trace

theorem Verdict.SameAnswer.symm {v w : Verdict} (h : v.SameAnswer w) : w.SameAnswer v :=
  ⟨h.decision.symm, h.reason.symm, h.policyKey.symm, h.policyName.symm, h.trace.symm⟩

theorem search_congr {r s : Request} {t u : TimeOfDay} {policies : List Policy}
    (h : ∀ p ∈ policies, p.applies r t = p.applies s u) :
    search r t policies = search s u policies := by
  induction policies with
  | nil => rfl
  | cons p ps ih =>
      have hrest := ih fun q hq => h q (List.mem_cons_of_mem _ hq)
      simp only [search, h p List.mem_cons_self, hrest]

theorem Policy.mem_of_mem_inForce {p : Policy} {policies : List Policy} {now : Instant}
    (h : p ∈ inForce policies now) : p ∈ policies := by
  rw [inForce, List.mem_mergeSort] at h
  exact (List.mem_filter.mp h).1

/-- What a search comes to settles the answer. -/
theorem rule_sameAnswer_of_search {c : Config} {r s : Request} {policies : List Policy}
    {now later : Instant}
    (h : search s (.ofInstant later c.utcOffset) (Policy.inForce policies later) =
      search r (.ofInstant now c.utcOffset) (Policy.inForce policies now)) :
    (rule c s policies later).verdict.SameAnswer (rule c r policies now).verdict := by
  simp only [rule, h]
  cases (search r (.ofInstant now c.utcOffset) (Policy.inForce policies now)).1 with
  | none => exact ⟨rfl, rfl, rfl, rfl, rfl⟩
  | some p => exact ⟨rfl, rfl, rfl, rfl, rfl⟩

/-- A request with the same subject is given the same answer up to the next
bound, where no policy looks at the time of day, and at the same instant
whatever policies look at. -/
theorem rule_sameAnswer {c : Config} {r s : Request} {policies : List Policy}
    {now later : Instant} (hsame : r.SameSubject s) (hle : now ≤ later)
    (hquiet : Policy.Undisturbed policies now later)
    (htime : now = later ∨ ∀ p ∈ policies, p.isTimeless = true) :
    (rule c s policies later).verdict.SameAnswer (rule c r policies now).verdict := by
  apply rule_sameAnswer_of_search
  rw [Policy.inForce_eq hle hquiet]
  apply (search_congr _).symm
  intro p hp
  apply Policy.applies_congr hsame
  rcases htime with rfl | htimeless
  · exact .inl rfl
  · exact .inr (htimeless p (Policy.mem_of_mem_inForce hp))

/-! ## What a verdict says of its making -/

theorem truncateToMillis_idem (t : Instant) :
    t.truncateToMillis.truncateToMillis = t.truncateToMillis := by
  simp only [Instant.truncateToMillis, Instant.mk.injEq, true_and]
  omega

theorem rule_timestamp (c : Config) (r : Request) (policies : List Policy) (now : Instant) :
    (rule c r policies now).verdict.timestamp = now.truncateToMillis := by
  simp only [rule]
  cases (search r (.ofInstant now c.utcOffset) (Policy.inForce policies now)).1 <;> rfl

theorem rule_expiration (c : Config) (r : Request) (policies : List Policy) (now : Instant) :
    (rule c r policies now).verdict.expirationMinutes =
      some (lifetimeOf c r (Policy.nextChange policies now) now) := by
  simp only [rule]

theorem Policy.mem_of_mem_distinct {p : Policy} {policies : List Policy}
    (h : p ∈ distinct policies) : p ∈ policies := by
  unfold distinct at h
  generalize ([] : List String) = seen at h
  induction policies generalizing seen with
  | nil => cases h
  | cons q qs ih =>
      rw [distinctBeyond] at h
      split at h
      · exact List.mem_cons_of_mem _ (ih seen h)
      · rcases List.mem_cons.mp h with rfl | hrest
        · exact List.mem_cons_self
        · exact List.mem_cons_of_mem _ (ih _ hrest)

section Span

variable {policies : List Policy} {now later : Instant} (hnow : now.isPlain = true)
  (hlater : later.isPlain = true)
  (hbounds : ∀ p ∈ policies, ∀ bound ∈ p.bounds, bound.isPlain = true)

include hnow hbounds

theorem nextChange_since {change : Instant} (h : Policy.nextChange policies now = some change) :
    change.since now = change.count - now.count ∧ now.count < change.count := by
  obtain ⟨⟨p, hp, hbound⟩, hafter⟩ := Policy.nextChange_mem h
  have hplain := hbounds p hp change hbound
  rw [Instant.lt_iff_count hnow hplain] at hafter
  exact ⟨Instant.since_eq hplain hnow, hafter⟩

include hlater

/-- Within a span that ends before the next change no bound disturbs the
policies. -/
theorem undisturbed_of_span {span : Int}
    (hspan : ∀ change, Policy.nextChange policies now = some change → span ≤ change.since now)
    (hwithin : later.count - now.count < span) : Policy.Undisturbed policies now later := by
  apply Policy.undisturbed_of_nextChange
  intro change hchange
  obtain ⟨⟨p, hp, hbound⟩, -⟩ := Policy.nextChange_mem hchange
  obtain ⟨hsince, -⟩ := nextChange_since hnow hbounds hchange
  have hends := hspan change hchange
  rw [Instant.lt_iff_count hlater (hbounds p hp change hbound)]
  omega

/-- Up to the end of the lifetime of a verdict no bound disturbs the policies
it was decided from. -/
theorem undisturbed_of_lifetime {c : Config} {r : Request}
    (hlives : later.count - now.count <
      Time.ofMinutes (lifetimeOf c r (Policy.nextChange policies now) now).toNat) :
    Policy.Undisturbed policies now later := by
  refine undisturbed_of_span hnow hlater hbounds ?_ hlives
  intro change hchange
  obtain ⟨-, hdeadlines⟩ := lifetimeOf_bounds c r (Policy.nextChange policies now) now
  obtain ⟨hsince, hafter⟩ := nextChange_since hnow hbounds hchange
  rcases hdeadlines change (by simp [hchange]) with hzero | hspan
  · rw [hzero, hsince]
    simp only [Time.ofMinutes]
    omega
  · exact hspan

end Span

end DecisionPoint
