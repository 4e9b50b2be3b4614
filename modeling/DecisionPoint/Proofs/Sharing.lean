import DecisionPoint.Proofs.Documents
import DecisionPoint.Proofs.Run
import DecisionPoint.Proofs.Serving

/-!
Requests that share a decision key. The key names the type of the resource,
the action, the user and the tenant, but neither the resource nor the address
of the client, which conditions look at as well. So two requests with one key
are answered alike on every store exactly if they agree in these two: where
they do not, a policy that admits a single address or a single resource tells
them apart, and the verdict kept for one is served to the other all the same.
-/

namespace DecisionPoint

open Time (Instant TimeOfDay)

/-! ## Policies that tell requests apart -/

/-- A policy of all tenants and all times that applies under some conditions. -/
def Policy.gate (c : Conditions) : Policy where
  key := "gate"
  name := "Gate"
  enabled := true
  status := .active
  priority := 0
  tenant := none
  rules := none
  conditions := some c.toDocument
  actions := none
  effectiveFrom := none
  effectiveUntil := none

namespace Conditions

def onlyAddress (a : String) : Conditions :=
  { blank with ip := some ⟨[a], []⟩ }

def onlyResource (a : String) : Conditions :=
  { blank with resource := some ⟨.blank, ⟨[a], []⟩⟩ }

theorem matches_onlyAddress {a : String} {r : Request} {t : TimeOfDay} :
    (onlyAddress a).matches r t = true ↔ r.clientIp = some a := by
  cases h : r.clientIp with
  | none =>
      simp [Conditions.matches, onlyAddress, blank, groups, AccessList.isEmpty,
        ConditionGroup.passes, AccessList.permits, h]
  | some b =>
      simp [Conditions.matches, onlyAddress, blank, groups, AccessList.isEmpty,
        ConditionGroup.passes, AccessList.permits, h]

theorem matches_onlyResource {a : String} {r : Request} {t : TimeOfDay} :
    (onlyResource a).matches r t = true ↔ r.resourceId = some a := by
  cases h : r.resourceId with
  | none =>
      simp [Conditions.matches, onlyResource, blank, groups, ResourceLists.isEmpty,
        AccessList.isEmpty, AccessList.blank, ConditionGroup.passes, AccessList.permits, h]
  | some b =>
      simp [Conditions.matches, onlyResource, blank, groups, ResourceLists.isEmpty,
        AccessList.isEmpty, AccessList.blank, ConditionGroup.passes, AccessList.permits, h]

end Conditions

theorem Policy.applies_gate {c : Conditions} (h : c.time = none) (r : Request) (t : TimeOfDay) :
    (gate c).applies r t = c.matches r t := by
  have hwhole : c.isWhole = true := by
    rw [Conditions.isWhole, h]
    rfl
  rw [applies, gate, Option.getD_some, Conditions.ofDocument_toDocument hwhole]

theorem Policy.inForce_gate (c : Conditions) (now : Instant) :
    inForce [gate c] now = [gate c] := by
  simp [inForce, gate, isCandidate, isEffectiveAt]

/-- A gate decides what its conditions match, and nothing decides the rest. -/
theorem verdict_gate {settings : Config} {c : Conditions} (h : c.time = none) (r : Request)
    (now : Instant) :
    let v := (rule settings r [Policy.gate c] now).verdict
    let passes := c.matches r (.ofInstant now settings.utcOffset)
    v.decision = (if passes then .allow else settings.noMatch) ∧
      v.policyKey = if passes then some "gate" else none := by
  simp only [rule, Policy.inForce_gate, search, Policy.applies_gate h]
  split <;> exact ⟨rfl, rfl⟩

theorem found_gate (c : Conditions) (tenant : Option String) :
    Policy.distinct ((Backend.memory ⟨[Policy.gate c], 0⟩).found tenant) = [Policy.gate c] := by
  cases tenant <;> rfl

namespace Deployment

/-! ## One request after the other -/

section Empty

variable {d : Deployment} (hempty : d.cache.entries = [])

include hempty

/-- What an evaluation keeps says what the store gives. -/
theorem written_after {r : Request} (hfit : r.defect? = none) {x : CacheEntry}
    (hx : x ∈ (d.evaluation r).state.cache.entries) :
    (x.key = Key.decision r ∧ x.value =
        (rule d.config r (Policy.distinct (d.backend.found r.tenant)) d.clock).verdict.toText) ∨
      (x.key = Key.candidates r.tenant ∧
        x.value = Policy.listToText (Policy.distinct (d.backend.found r.tenant))) := by
  rcases evaluation_entries hfit hx with hold | hwritten
  · rw [hempty] at hold
    cases hold
  · cases hwritten with
    | decision policies hkept hloaded hsource hresult =>
        obtain rfl := policies_of_source hempty hsource
        exact .inl ⟨rfl, rfl⟩
    | candidates hqueried => exact .inr ⟨rfl, rfl⟩

/-- A request with the subject and the key of another is answered right after
it, and answered as with an empty cache. -/
theorem result_after (htick : d.tick = 0) (horder : d.storeInOrder) {r s : Request}
    (hr : r.defect? = none) (hs : s.defect? = none)
    (hkey : Key.decision r = Key.decision s) (hsame : r.SameSubject s) :
    ∃ v, ((d.evaluation r).state.evaluation s).result = some (.ok v) ∧
      v.SameAnswer
        (rule d.config s (Policy.distinct (d.backend.found s.tenant)) d.clock).verdict := by
  obtain ⟨-, -, -, htenant⟩ := Key.decision_components hr hs hkey
  obtain ⟨hworld, -⟩ := d.evaluation_fit hr
  obtain ⟨-, hways⟩ := (d.evaluation r).state.evaluation_fit hs
  cases hways with
  | failed hkept hresult hdisorder hentries =>
      exact absurd (hworld.storeInOrder horder) hdisorder
  | served v hkept hresult hentries =>
      refine ⟨v, hresult, ?_⟩
      obtain ⟨x, hx, hxkey, -, htext⟩ := live_of_kept? hkept
      rcases written_after hempty hr hx with ⟨-, hvalue⟩ | ⟨hlist, -⟩
      · rw [hvalue] at htext
        obtain rfl := Verdict.ofText?_eq (by rw [rule_timestamp, truncateToMillis_idem]) htext
        rw [← htenant]
        apply Verdict.SameAnswer.symm
        exact rule_sameAnswer hsame (Instant.le_refl _) (Policy.undisturbed_self _ _) (.inl rfl)
      · rw [hlist] at hxkey
        exact absurd hxkey.symm (Key.decision_ne_candidates s r.tenant)
  | computed policies hkept hloaded hsource hresult hcache hentries =>
      have hpolicies : policies = Policy.distinct (d.backend.found s.tenant) := by
        cases hsource with
        | store hlist hqueried => rw [hlist, hworld.found]
        | cache hlive =>
            obtain ⟨x, hx, hxkey, -, htext⟩ := hlive
            rcases written_after hempty hr hx with ⟨hdecision, -⟩ | ⟨-, hvalue⟩
            · rw [hdecision] at hxkey
              exact absurd hxkey (Key.decision_ne_candidates r s.tenant)
            · rw [hvalue] at htext
              rw [← htenant]
              exact Policy.listOfText?_eq htext
      rw [hpolicies, hworld.config, hworld.clock htick] at hresult
      exact ⟨_, hresult, ⟨rfl, rfl, rfl, rfl, rfl⟩⟩

end Empty

/-- Whether two requests are answered alike, the second also right after the
first. -/
def AnsweredAlike (d : Deployment) (r s : Request) : Prop :=
  ∃ v w served, (d.evaluation r).result = some (.ok v) ∧ (d.evaluation s).result = some (.ok w) ∧
    ((d.evaluation r).state.evaluation s).result = some (.ok served) ∧
    v.decision = w.decision ∧ v.policyKey = w.policyKey ∧
    served.decision = w.decision ∧ served.policyKey = w.policyKey

/-- Requests that a gate answers alike are matched by it alike. -/
theorem matches_of_answeredAlike {settings : Config} {capacity : Nat} {clock : Instant}
    {r s : Request} (hr : r.defect? = none) (hs : s.defect? = none) {c : Conditions}
    (hc : c.time = none)
    (h : AnsweredAlike (start settings capacity (.memory ⟨[Policy.gate c], 0⟩) clock 0) r s) :
    c.matches r (.ofInstant clock settings.utcOffset) =
      c.matches s (.ofInstant clock settings.utcOffset) := by
  obtain ⟨v, w, served, hv, hw, -, -, hpolicy, -⟩ := h
  rw [evaluation_empty rfl ⟨rfl, rfl⟩ hr] at hv
  rw [evaluation_empty rfl ⟨rfl, rfl⟩ hs] at hw
  cases hv
  cases hw
  have hmatches : ∀ x, (rule settings x [Policy.gate c] clock).verdict.policyKey.isSome =
      c.matches x (.ofInstant clock settings.utcOffset) := by
    intro x
    rw [(verdict_gate hc x clock).2]
    cases c.matches x _ <;> rfl
  simp only [start, found_gate] at hpolicy
  rw [← hmatches r, ← hmatches s, hpolicy]

/-- Two requests with one key are answered alike on every store if and only if
they agree in the resource and in the address of the client. -/
theorem answeredAlike_iff (settings : Config) (capacity : Nat) (clock : Instant) {r s : Request}
    (hr : r.defect? = none) (hs : s.defect? = none) (hkey : Key.decision r = Key.decision s) :
    (∀ backend, AnsweredAlike (start settings capacity backend clock 0) r s) ↔
      r.resourceId = s.resourceId ∧ r.clientIp = s.clientIp := by
  constructor
  · intro halike
    constructor
    · apply Option.ext
      intro a
      have hmatch := matches_of_answeredAlike (c := .onlyResource a) hr hs rfl (halike _)
      rw [Bool.eq_iff_iff, Conditions.matches_onlyResource, Conditions.matches_onlyResource]
        at hmatch
      exact hmatch
    · apply Option.ext
      intro a
      have hmatch := matches_of_answeredAlike (c := .onlyAddress a) hr hs rfl (halike _)
      rw [Bool.eq_iff_iff, Conditions.matches_onlyAddress, Conditions.matches_onlyAddress]
        at hmatch
      exact hmatch
  · rintro ⟨hid, hip⟩ backend
    obtain ⟨htype, -, huser, htenant⟩ := Key.decision_components hr hs hkey
    have hsame : r.SameSubject s := ⟨htype, hid, huser, hip⟩
    obtain ⟨served, hserved, hanswer⟩ :=
      result_after (d := start settings capacity backend clock 0) rfl rfl ⟨rfl, rfl⟩ hr hs hkey
        hsame
    have halike : (rule settings s (Policy.distinct (backend.found s.tenant)) clock).verdict.SameAnswer
        (rule settings r (Policy.distinct (backend.found r.tenant)) clock).verdict := by
      rw [htenant]
      exact rule_sameAnswer hsame (Instant.le_refl _) (Policy.undisturbed_self _ _) (.inl rfl)
    exact ⟨_, _, served, evaluation_empty rfl ⟨rfl, rfl⟩ hr, evaluation_empty rfl ⟨rfl, rfl⟩ hs,
      hserved, halike.decision.symm, halike.policyKey.symm, hanswer.decision, hanswer.policyKey⟩

def sampleRequest (address : String) : Request :=
  { Sample.request with clientIp := some address }

theorem defect?_sampleRequest (address : String) : (sampleRequest address).defect? = none := by
  have hrequired : (sampleRequest address).requiredFields = Sample.request.requiredFields := rfl
  have hkeyed : (sampleRequest address).keyedFields = Sample.request.keyedFields := rfl
  rw [Request.defect?, hrequired, hkeyed]
  decide +kernel

theorem answeredAlike_iff_sample :
    (sampleRequest "10.0.0.1").defect? = none ∧ (sampleRequest "10.0.0.66").defect? = none ∧
      Key.decision (sampleRequest "10.0.0.1") = Key.decision (sampleRequest "10.0.0.66") ∧
      ((∀ backend, AnsweredAlike (start .standard 4 backend .epoch 0) (sampleRequest "10.0.0.1")
          (sampleRequest "10.0.0.66")) ↔
        (sampleRequest "10.0.0.1").resourceId = (sampleRequest "10.0.0.66").resourceId ∧
          (sampleRequest "10.0.0.1").clientIp = (sampleRequest "10.0.0.66").clientIp) :=
  ⟨defect?_sampleRequest _, defect?_sampleRequest _, rfl,
    answeredAlike_iff _ _ _ (defect?_sampleRequest _) (defect?_sampleRequest _) rfl⟩

/-- An engine that denies where no policy applies, over a policy that admits one
address. -/
def sampleGuarded : Deployment :=
  start { Config.standard with noMatch := .deny } 4
    (.memory ⟨[Policy.gate (.onlyAddress "10.0.0.1")], 0⟩) .epoch 0

/-- Two requests with one key are answered differently with an empty cache, and
alike where the first is in it. -/
theorem answers_unlike :
    (sampleRequest "10.0.0.1").defect? = none ∧ (sampleRequest "10.0.0.66").defect? = none ∧
      Key.decision (sampleRequest "10.0.0.1") = Key.decision (sampleRequest "10.0.0.66") ∧
      ∃ v w, (sampleGuarded.evaluation (sampleRequest "10.0.0.1")).result = some (.ok v) ∧
        (sampleGuarded.evaluation (sampleRequest "10.0.0.66")).result = some (.ok w) ∧
        ((sampleGuarded.evaluation (sampleRequest "10.0.0.1")).state.evaluation
          (sampleRequest "10.0.0.66")).result = some (.ok v) ∧
        v.decision = .allow ∧ v.policyKey = some "gate" ∧
        w.decision = .deny ∧ w.policyKey = none := by
  have hfirst := defect?_sampleRequest "10.0.0.1"
  have hsecond := defect?_sampleRequest "10.0.0.66"
  have hadmitted := evaluation_empty (d := sampleGuarded) rfl ⟨rfl, rfl⟩ hfirst
  have hrefused := evaluation_empty (d := sampleGuarded) rfl ⟨rfl, rfl⟩ hsecond
  simp only [sampleGuarded, start, found_gate] at hadmitted hrefused
  refine ⟨hfirst, hsecond, rfl, _, _, hadmitted, hrefused, ?_, ?_⟩
  · apply served_right_after ⟨rfl, rfl, Nat.zero_le _, by decide⟩ hfirst hsecond
      (kept?_empty rfl _) hadmitted ?_ rfl ?_
    · rw [Verdict.isWritable, rule_timestamp]
      decide +kernel
    · rw [DecisionCache.lifetime, rule_expiration]
      decide +kernel
  · rw [(verdict_gate rfl _ _).1, (verdict_gate rfl _ _).2, (verdict_gate rfl _ _).1,
      (verdict_gate rfl _ _).2]
    decide +kernel

end Deployment

end DecisionPoint
