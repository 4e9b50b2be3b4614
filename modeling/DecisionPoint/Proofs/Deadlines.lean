import DecisionPoint.Proofs.Windows
import DecisionPoint.Proofs.Writing
import Mathlib.Order.Bounds.Basic

/-!
How long an engine keeps what it keeps. A verdict is kept for the largest whole
number of minutes within the settings that ends by every deadline, and candidates up
to the next change among them. Both go by the difference of two instants, which leaves
out a leap second that ends a day between them: there it comes out negative, a verdict
is then not kept at all, but candidates are kept as if no change lay ahead.
-/

namespace DecisionPoint

open Time (Instant)

/-! ## The lifetime of a verdict -/

theorem minutesUntil_eq_zero_iff {now deadline : Instant} :
    minutesUntil now deadline = 0 ↔ deadline.since now < Time.ofMinutes 1 := by
  have hone : (Time.ofMinutes 1 : Int) ≤ deadline.since now ↔ 1 ≤ minutesUntil now deadline :=
    ofMinutes_le_iff (.inl Nat.one_pos)
  omega

/-- The largest whole number of minutes within the settings that ends by every
deadline, and none where one comes within the minute or has passed. -/
structure IsLifetime (ttl : UInt32) (now : Instant) (deadlines : List Instant)
    (minutes : UInt32) : Prop where
  greatest : (∀ deadline ∈ deadlines, 0 ≤ deadline.since now) →
    IsGreatest {n : Nat | n ≤ ttl.toNat ∧
      ∀ deadline ∈ deadlines, (Time.ofMinutes n : Int) ≤ deadline.since now} minutes.toNat
  none : ∀ deadline ∈ deadlines, deadline.since now < Time.ofMinutes 1 → minutes = 0

namespace IsLifetime

variable {ttl minutes other : UInt32} {now : Instant} {deadlines order : List Instant}

/-- A lifetime is fixed by what it is capped by. -/
theorem unique (h : IsLifetime ttl now deadlines minutes)
    (hother : IsLifetime ttl now deadlines other) : minutes = other := by
  by_cases hnear : ∃ deadline ∈ deadlines, deadline.since now < Time.ofMinutes 1
  · obtain ⟨deadline, hmem, hspan⟩ := hnear
    rw [h.none deadline hmem hspan, hother.none deadline hmem hspan]
  · have hahead : ∀ deadline ∈ deadlines, 0 ≤ deadline.since now := by
      intro deadline hmem
      have hspan := not_exists.mp hnear deadline
      simp only [hmem, true_and, Time.ofMinutes] at hspan
      omega
    exact UInt32.toNat_inj.mp ((h.greatest hahead).unique (hother.greatest hahead))

theorem of_perm (hperm : order.Perm deadlines) (h : IsLifetime ttl now order minutes) :
    IsLifetime ttl now deadlines minutes := by
  constructor
  · simpa only [hperm.mem_iff] using h.greatest
  · simpa only [hperm.mem_iff] using h.none

end IsLifetime

/-- Capping by one deadline after the other comes to the lifetime. -/
theorem isLifetime_foldl (ttl : UInt32) (now : Instant) (deadlines : List Instant) :
    IsLifetime ttl now deadlines (deadlines.foldl (cappedBy now) ttl) := by
  have hle := le_foldl_cappedBy_iff now deadlines ttl
  constructor
  · intro hahead
    have hspan : ∀ n, (∀ deadline ∈ deadlines, (Time.ofMinutes n : Int) ≤ deadline.since now) ↔
        ∀ deadline ∈ deadlines, n ≤ minutesUntil now deadline :=
      fun n => forall₂_congr fun deadline hmem => ofMinutes_le_iff (.inr (hahead deadline hmem))
    constructor
    · obtain ⟨httl, hends⟩ := (hle _).mp (Nat.le_refl _)
      exact ⟨httl, (hspan _).mpr hends⟩
    · rintro n ⟨httl, hends⟩
      exact (hle n).mpr ⟨httl, (hspan n).mp hends⟩
  · intro deadline hmem hnear
    have hnone := minutesUntil_eq_zero_iff.mpr hnear
    have hends := ((hle _).mp (Nat.le_refl _)).2 deadline hmem
    rw [← UInt32.toNat_inj, UInt32.toNat_zero]
    omega

/-- The deadlines of a verdict: the end of its request and the next change among the
policies it was decided from. -/
def deadlines (r : Request) (policies : List Policy) (now : Instant) : List Instant :=
  r.expiresAt.toList ++ (Policy.nextChange policies now).toList

/-- A verdict that was decided says the largest whole number of minutes that ends by its
deadlines, in whatever order they are looked at, and is kept for just as long, or not at
all where that is none. -/
theorem lifetime_exact (c : Config) (r : Request) :
    (∀ policies now, ∃ minutes,
      (rule c r policies now).verdict.expirationMinutes = some minutes ∧
      IsLifetime c.defaultTtl now (deadlines r policies now) minutes ∧
      ∀ order : List Instant, order.Perm (deadlines r policies now) →
        order.foldl (cappedBy now) c.defaultTtl = minutes) ∧
    ∀ (σ : Type) (collaborators : Collaborators σ) (s : σ),
      let course := (Engine.evaluate c r).run collaborators s
      let policies := candidatesIn c r.tenant course.transcript
      ∀ v, course.result = some (.ok v) → servedIn? c r course.transcript = none →
        ∃ now minutes, course.transcript.findSome? Exchange.time? = some now ∧
          v = (rule c r policies now).verdict ∧ v.expirationMinutes = some minutes ∧
          IsLifetime c.defaultTtl now (deadlines r policies now) minutes ∧
          writesTo (Key.decision r) course.transcript =
            if minutes = 0 then [] else [(v.toText, Time.ofMinutes minutes.toNat)] := by
  constructor
  · intro policies now
    refine ⟨_, rule_expiration c r policies now, isLifetime_foldl _ _ _, ?_⟩
    intro order hperm
    exact ((isLifetime_foldl _ _ order).of_perm hperm).unique (isLifetime_foldl _ _ _)
  · intro σ collaborators s course policies v hresult hunserved
    have hheld := Dialogue.held_run collaborators (Engine.evaluate c r) s
    rw [hresult] at hheld
    obtain ⟨now, htime, hverdict, hwrites⟩ := decided_of_unserved hheld hunserved
    have hminutes := rule_expiration c r policies now
    rw [← hverdict] at hminutes
    refine ⟨now, _, htime, hverdict, hminutes, isLifetime_foldl _ _ _, ?_⟩
    rw [hwrites, DecisionCache.lifetime, hminutes, Option.getD_some]

/-- Two and a half minutes before the next change a verdict is kept for two minutes,
though the settings give five. -/
theorem lifetime_exact_sample :
    let d := Sample.deployment (Time.ofMillis 450000)
    let course := d.hold (Engine.evaluate d.config Sample.request)
    ∃ v, course.result = some (.ok v) ∧
      servedIn? d.config Sample.request course.transcript = none ∧
      d.config.defaultTtl = 5 ∧ v.expirationMinutes = some 2 ∧
      writesTo (Key.decision Sample.request) course.transcript =
        [(v.toText, Time.ofMinutes 2)] := by
  intro d course
  have hresult := Deployment.evaluation_empty (d := d) (r := Sample.request) rfl ⟨rfl, rfl⟩
    (by decide +kernel)
  have hunserved : servedIn? d.config Sample.request course.transcript = none := by
    decide +kernel
  have htwo : (rule d.config Sample.request (Policy.distinct (d.backend.found
      Sample.request.tenant)) d.clock).verdict.expirationMinutes = some 2 := by
    decide +kernel
  obtain ⟨now, minutes, -, -, hminutes, -, hwrites⟩ :=
    (lifetime_exact d.config Sample.request).2 _ Deployment.collaborators d _ hresult hunserved
  obtain rfl := Option.some.inj (htwo.symm.trans hminutes)
  exact ⟨_, hresult, hunserved, rfl, htwo, hwrites⟩

/-! ## The span of candidates -/

section Candidates

variable {c : Config} {policies : List Policy} {now change : Instant}

theorem candidateSpan_le (c : Config) (policies : List Policy) (now : Instant) :
    candidateSpan c policies now ≤ Time.ofMinutes c.candidateTtl.toNat := by
  unfold candidateSpan DecisionCache.candidateTtl
  cases Engine.candidateCap policies now with
  | none => exact Nat.le_refl _
  | some cap => exact Nat.min_le_right _ _

/-- Up to a next change ahead of the clock candidates are kept no longer than that, and
past one whose difference comes out negative as long as the settings say. -/
theorem candidateSpan_of_comesNext (h : Policy.ComesNext policies now change) :
    (0 ≤ change.since now → candidateSpan c policies now =
        min (change.since now).toNat (Time.ofMinutes c.candidateTtl.toNat)) ∧
      (change.since now < 0 → candidateSpan c policies now =
        Time.ofMinutes c.candidateTtl.toNat) := by
  simp only [candidateSpan, DecisionCache.candidateTtl, Engine.candidateCap,
    Policy.nextChange_eq_some_iff.mpr h, Option.bind_some]
  constructor
  · intro hahead
    rw [if_neg (Int.not_lt.mpr hahead)]
    rfl
  · intro hback
    rw [if_pos hback]
    rfl

/-- Candidates are kept beyond the next change exactly where a leap second hides it. -/
theorem candidateSpan_le_iff (h : Policy.ComesNext policies now change) :
    (candidateSpan c policies now : Int) ≤ change.since now ↔ ¬ now.Outruns change := by
  obtain ⟨hahead, hback⟩ := candidateSpan_of_comesNext (c := c) h
  rw [← Instant.since_neg_iff h.ahead]
  omega

/-- Candidates are not kept at all only where the settings or the next change leave no
time. -/
theorem candidateSpan_eq_zero_iff :
    candidateSpan c policies now = 0 ↔
      c.candidateTtl = 0 ∨
        ∃ change, Policy.ComesNext policies now change ∧ change.since now = 0 := by
  have hsettings := ofMinutes_eq_zero_iff c.candidateTtl
  cases hnext : Policy.nextChange policies now with
  | none =>
      have hnone : ∀ change, ¬ Policy.ComesNext policies now change := by
        intro change h
        cases hnext.symm.trans (Policy.nextChange_eq_some_iff.mpr h)
      simp only [candidateSpan, DecisionCache.candidateTtl, Engine.candidateCap, hnext, hnone,
        false_and, exists_false, or_false]
      exact hsettings
  | some next =>
      have hcomes := Policy.nextChange_eq_some_iff.mp hnext
      have honly : (∃ change, Policy.ComesNext policies now change ∧ change.since now = 0) ↔
          next.since now = 0 := by
        constructor
        · rintro ⟨change, h, hzero⟩
          obtain rfl := Option.some.inj (hnext.symm.trans (Policy.nextChange_eq_some_iff.mpr h))
          exact hzero
        · exact fun hzero => ⟨next, hcomes, hzero⟩
      obtain ⟨hahead, hback⟩ := candidateSpan_of_comesNext (c := c) hcomes
      rw [honly, ← hsettings]
      omega

theorem mem_candidateWrites {kept : String × Nat} (h : kept ∈ candidateWrites c policies now) :
    kept.1 = Policy.listToText policies ∧ kept.2 = candidateSpan c policies now ∧ 0 < kept.2 := by
  unfold candidateWrites at h
  split at h
  · rename_i hkeeps
    obtain rfl := List.mem_singleton.mp h
    exact ⟨rfl, rfl, Nat.pos_of_ne_zero hkeeps.2⟩
  · cases h

/-- Candidates are not kept where that is switched off, where their time to live is zero,
and where the next change is at hand. -/
theorem candidateWrites_eq_nil_iff :
    candidateWrites c policies now = [] ↔
      c.cacheCandidates = false ∨ c.candidateTtl = 0 ∨
        ∃ change, Policy.ComesNext policies now change ∧ change.since now = 0 := by
  rw [← candidateSpan_eq_zero_iff, candidateWrites, ite_eq_right_iff]
  simp only [List.cons_ne_nil, imp_false]
  cases c.cacheCandidates <;> simp

end Candidates

/-- The candidates that the store found are kept at most for the span of the settings,
and no longer than up to the next change among them unless a leap second hides it. They
are kept unless that is switched off or leaves no time. -/
theorem candidates_kept_iff (c : Config) (r : Request) {σ : Type} (collaborators : Collaborators σ)
    (s : σ) :
    let course := (Engine.evaluate c r).run collaborators s
    let policies := Policy.distinct (findsIn course.transcript)
    let writes := writesTo (Key.candidates r.tenant) course.transcript
    (∀ kept ∈ writes, ∃ now, course.transcript.findSome? Exchange.time? = some now ∧
      kept.1 = Policy.listToText policies ∧ 0 < kept.2 ∧
      kept.2 ≤ Time.ofMinutes c.candidateTtl.toNat ∧
      ∀ change, Policy.ComesNext policies now change →
        ((kept.2 : Int) ≤ change.since now ↔ ¬ now.Outruns change)) ∧
    ∀ v, course.result = some (.ok v) → servedIn? c r course.transcript = none →
      listedIn? c r.tenant course.transcript = none →
      ∃ now, course.transcript.findSome? Exchange.time? = some now ∧
        (writes = [] ↔ c.cacheCandidates = false ∨ c.candidateTtl = 0 ∨
          ∃ change, Policy.ComesNext policies now change ∧ change.since now = 0) := by
  intro course policies writes
  have hheld := Dialogue.held_run collaborators (Engine.evaluate c r) s
  rcases candidateWrites_of_held hheld with ⟨hnone, hserved⟩ | ⟨now, htime, hwrites⟩
  · constructor
    · intro kept hmem
      rw [show writes = [] from hnone] at hmem
      cases hmem
    · intro v hresult hunserved hunlisted
      exact absurd hresult (hserved hunserved hunlisted v)
  · constructor
    · intro kept hmem
      rw [show writes = candidateWrites c policies now from hwrites] at hmem
      obtain ⟨htext, hspan, hpos⟩ := mem_candidateWrites hmem
      refine ⟨now, htime, htext, hpos, ?_, ?_⟩
      · rw [hspan]
        exact candidateSpan_le c policies now
      · intro change h
        rw [hspan]
        exact candidateSpan_le_iff h
    · intro v _ _ _
      refine ⟨now, htime, ?_⟩
      rw [show writes = candidateWrites c policies now from hwrites]
      exact candidateWrites_eq_nil_iff

theorem candidates_kept_iff_sample :
    let d := Sample.deployment (Time.ofMillis 450000)
    let course := d.hold (Engine.evaluate d.config Sample.request)
    let change := Instant.epoch.advance (Time.ofMinutes 10)
    ∃ kept, writesTo (Key.candidates Sample.request.tenant) course.transcript = [kept] ∧
      Policy.ComesNext (Policy.distinct (findsIn course.transcript)) d.clock change ∧
      ¬ d.clock.Outruns change ∧ (kept.2 : Int) ≤ change.since d.clock := by
  intro d course change
  have hone : (writesTo (Key.candidates Sample.request.tenant) course.transcript).length = 1 := by
    decide +kernel
  have hnext : Policy.nextChange (Policy.distinct (findsIn course.transcript)) d.clock =
      some change := by
    decide +kernel
  have htime : course.transcript.findSome? Exchange.time? = some d.clock := by decide +kernel
  have hahead : ¬ change.since d.clock < 0 := by decide +kernel
  have hcomes := Policy.nextChange_eq_some_iff.mp hnext
  rw [Instant.since_neg_iff hcomes.ahead] at hahead
  obtain ⟨kept, hkept⟩ := List.length_eq_one_iff.mp hone
  obtain ⟨hcapped, -⟩ := candidates_kept_iff d.config Sample.request Deployment.collaborators d
  obtain ⟨now, hnow, -, -, -, hspan⟩ := hcapped kept (hkept ▸ List.mem_cons_self)
  obtain rfl := Option.some.inj (htime.symm.trans hnow)
  exact ⟨kept, hkept, hcomes, hahead, (hspan change hcomes).mpr hahead⟩

/-- A policy that comes into force at the start of the second day of 1970. -/
def sampleNextDay : Policy :=
  { Sample.policy with effectiveFrom := some ⟨86400, 0, .inl (by decide)⟩ }

/-- An engine over a store with that policy, halfway through the leap second that ends
the first day. -/
def sampleLastSecond : Deployment :=
  .start .standard 4 (.memory ⟨[sampleNextDay], 0⟩) ⟨86399, 1500000000, .inr (by decide)⟩ 0

/-- In the leap second before a policy comes into force the candidates are kept for all
of the five minutes of the settings. -/
theorem kept_beyond_change :
    let d := sampleLastSecond
    let course := d.hold (Engine.evaluate d.config Sample.request)
    ∃ change, Policy.ComesNext (Policy.distinct (findsIn course.transcript)) d.clock change ∧
      change.since d.clock = -500000000 ∧
      (writesTo (Key.candidates Sample.request.tenant) course.transcript).map (·.2) =
        [Time.ofMinutes 5] := by
  intro d course
  refine ⟨⟨86400, 0, .inl (by decide)⟩, Policy.nextChange_eq_some_iff.mp ?_, ?_, ?_⟩
  all_goals decide +kernel

end DecisionPoint
