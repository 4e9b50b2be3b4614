import DecisionPoint.Proofs.Engine
import DecisionPoint.Proofs.Evaluation
import DecisionPoint.Proofs.Rules

/-!
The choice of the policy that decides. The policies that contend are the first
of each key that is in use and in force; they are visited by rank, which is
strict because keys differ, and so the first match is the one match that no
other match outranks. It decides by the first of its enabled rules in order of
falling priority, or by its default, and the verdict says which.
-/

namespace DecisionPoint

open Time (Instant TimeOfDay)

namespace Policy

/-! ## Rank -/

/-- Whether a policy is looked at before another: by priority, and by key where
priorities are equal. -/
def Outranks (p q : Policy) : Prop :=
  q.priority < p.priority ∨ (q.priority = p.priority ∧ p.key < q.key)

theorem precedes_iff {p q : Policy} :
    precedes p q = true ↔ q.priority < p.priority ∨ (p.priority = q.priority ∧ p.key ≤ q.key) := by
  simp [precedes]

/-- Precedence sorts: it is transitive, and by `precedes_total` total. -/
theorem precedes_trans (p q s : Policy) (hpq : precedes p q = true) (hqs : precedes q s = true) :
    precedes p s = true := by
  rw [precedes_iff] at *
  simp only [Int32.lt_iff_toInt_lt, ← Int32.toInt_inj] at *
  rcases hpq with hpq | ⟨hpq, hkeys⟩
  · left
    rcases hqs with hqs | ⟨hqs, -⟩ <;> omega
  · rcases hqs with hqs | ⟨hqs, hkeys'⟩
    · left
      omega
    · right
      exact ⟨by omega, String.le_trans hkeys hkeys'⟩

theorem precedes_total (p q : Policy) : (precedes p q || precedes q p) = true := by
  rw [Bool.or_eq_true, precedes_iff, precedes_iff]
  simp only [Int32.lt_iff_toInt_lt, ← Int32.toInt_inj]
  rcases Int.lt_trichotomy p.priority.toInt q.priority.toInt with hlt | heq | hgt
  · exact .inr (.inl hlt)
  · rcases String.le_total p.key q.key with hkey | hkey
    · exact .inl (.inr ⟨heq, hkey⟩)
    · exact .inr (.inr ⟨heq.symm, hkey⟩)
  · exact .inl (.inl hgt)

theorem outranks_of_precedes {p q : Policy} (h : precedes p q = true) (hkeys : p.key ≠ q.key) :
    p.Outranks q := by
  rcases precedes_iff.mp h with hpriority | ⟨hpriority, hkey⟩
  · exact .inl hpriority
  · refine .inr ⟨hpriority.symm, ?_⟩
    rw [← String.not_le]
    intro hback
    exact hkeys (String.le_antisymm hkey hback)

theorem not_outranks_of_outranks {p q : Policy} (h : p.Outranks q) : ¬ q.Outranks p := by
  intro hback
  simp only [Outranks, Int32.lt_iff_toInt_lt, ← Int32.toInt_inj] at h hback
  rcases h with h | ⟨h, hkey⟩
  · rcases hback with hback | ⟨hback, -⟩ <;> omega
  · rcases hback with hback | ⟨-, hkey'⟩
    · omega
    · exact String.lt_irrefl _ (String.lt_trans hkey hkey')

/-! ## Contenders -/

/-- Whether a policy contends for the decision: it is the first of its key among
those found, in use, and in force. -/
structure Contends (found : List Policy) (now : Instant) (p : Policy) : Prop where
  first : ∃ front back, found = front ++ p :: back ∧ ∀ q ∈ front, q.key ≠ p.key
  enabled : p.enabled = true
  active : p.status = .active
  started : ∀ t, p.effectiveFrom = some t → t ≤ now
  lasting : ∀ t, p.effectiveUntil = some t → now < t

theorem Contends.mem {found : List Policy} {now : Instant} {p : Policy}
    (h : p.Contends found now) : p ∈ found := by
  obtain ⟨front, back, rfl, -⟩ := h.first
  exact List.mem_append_right _ List.mem_cons_self

/-- The first policy of its key in a list is the first one of the list, or has another
key than that and is the first of its key in the rest. -/
theorem exists_first_cons {first p : Policy} {rest : List Policy} :
    (∃ front back, first :: rest = front ++ p :: back ∧ ∀ q ∈ front, q.key ≠ p.key) ↔
      first = p ∨ first.key ≠ p.key ∧
        ∃ front back, rest = front ++ p :: back ∧ ∀ q ∈ front, q.key ≠ p.key := by
  constructor
  · rintro ⟨front, back, hsplit, hfront⟩
    cases front with
    | nil =>
        cases hsplit
        exact .inl rfl
    | cons q front =>
        cases hsplit
        obtain ⟨hfirst, hrest⟩ := List.forall_mem_cons.mp hfront
        exact .inr ⟨hfirst, front, back, rfl, hrest⟩
  · rintro (rfl | ⟨hfirst, front, back, rfl, hrest⟩)
    · exact ⟨[], rest, rfl, fun _ h => by cases h⟩
    · exact ⟨first :: front, back, rfl, List.forall_mem_cons.mpr ⟨hfirst, hrest⟩⟩

/-- Of the policies with one key the first one stays. -/
theorem mem_distinctBeyond {seen : List String} {policies : List Policy} {p : Policy} :
    p ∈ distinctBeyond seen policies ↔ p.key ∉ seen ∧
      ∃ front back, policies = front ++ p :: back ∧ ∀ q ∈ front, q.key ≠ p.key := by
  induction policies generalizing seen with
  | nil =>
      constructor
      · intro h
        cases h
      · rintro ⟨-, front, back, hsplit, -⟩
        simp at hsplit
  | cons first rest ih =>
      rw [distinctBeyond, exists_first_cons]
      by_cases hseen : seen.contains first.key = true
      · have hmem : first.key ∈ seen := List.contains_iff_mem.mp hseen
        rw [if_pos hseen, ih]
        constructor
        · rintro ⟨hfresh, hrest⟩
          exact ⟨hfresh, .inr ⟨fun hkey => hfresh (hkey ▸ hmem), hrest⟩⟩
        · rintro ⟨hfresh, rfl | ⟨-, hrest⟩⟩
          · exact absurd hmem hfresh
          · exact ⟨hfresh, hrest⟩
      · have hnew : first.key ∉ seen := fun hmem => hseen (List.contains_iff_mem.mpr hmem)
        rw [if_neg hseen, List.mem_cons, ih, List.mem_cons, not_or]
        constructor
        · rintro (rfl | ⟨⟨hother, hfresh⟩, hrest⟩)
          · exact ⟨hnew, .inl rfl⟩
          · exact ⟨hfresh, .inr ⟨Ne.symm hother, hrest⟩⟩
        · rintro ⟨hfresh, rfl | ⟨hother, hrest⟩⟩
          · exact .inl rfl
          · exact .inr ⟨⟨Ne.symm hother, hfresh⟩, hrest⟩

/-- No two policies that stay have one key. -/
theorem distinctBeyond_pairwise (seen : List String) (policies : List Policy) :
    (distinctBeyond seen policies).Pairwise fun p q => p.key ≠ q.key := by
  induction policies generalizing seen with
  | nil => exact List.Pairwise.nil
  | cons first rest ih =>
      rw [distinctBeyond]
      split
      · exact ih seen
      · refine List.Pairwise.cons ?_ (ih _)
        intro q hq heq
        have hfresh := (mem_distinctBeyond.mp hq).1
        rw [← heq] at hfresh
        exact hfresh List.mem_cons_self

/-- The policies in force are the contenders. -/
theorem mem_inForce_distinct {found : List Policy} {now : Instant} {p : Policy} :
    p ∈ inForce (distinct found) now ↔ Contends found now p := by
  rw [inForce, List.mem_mergeSort, List.mem_filter, distinct, mem_distinctBeyond]
  simp only [isCandidate, isEffectiveAt, Bool.and_eq_true, beq_iff_eq, Option.all_eq_true,
    decide_eq_true_eq]
  constructor
  · rintro ⟨⟨-, hfirst⟩, ⟨henabled, hactive⟩, hstarted, hlasting⟩
    exact ⟨hfirst, henabled, hactive, fun t ht => hstarted t ht, fun t ht => hlasting t ht⟩
  · rintro ⟨hfirst, henabled, hactive, hstarted, hlasting⟩
    exact ⟨⟨List.not_mem_nil, hfirst⟩, ⟨henabled, hactive⟩, fun t ht => hstarted t ht,
      fun t ht => hlasting t ht⟩

/-- The policies in force are visited by rank. -/
theorem inForce_distinct_ranked (found : List Policy) (now : Instant) :
    (inForce (distinct found) now).Pairwise Outranks := by
  have hsorted := List.pairwise_mergeSort precedes_trans precedes_total
    ((distinct found).filter fun p => p.isCandidate && p.isEffectiveAt now)
  have hkeys : (inForce (distinct found) now).Pairwise fun p q => p.key ≠ q.key := by
    have hperm := List.mergeSort_perm
      ((distinct found).filter fun p => p.isCandidate && p.isEffectiveAt now) precedes
    refine (hperm.pairwise_iff fun h => Ne.symm h).mpr ?_
    exact (distinctBeyond_pairwise [] found).sublist List.filter_sublist
  exact (hsorted.and hkeys).imp fun h => outranks_of_precedes h.1 h.2

theorem contends_iff {found : List Policy} {now : Instant} {p : Policy} :
    Contends found now p ↔
      p ∈ (distinct found).filter fun p => p.isCandidate && p.isEffectiveAt now := by
  rw [← mem_inForce_distinct, inForce, List.mem_mergeSort]

/-- Rank leaves one order for a set of policies. -/
theorem eq_of_ranked {policies others : List Policy} (hranked : policies.Pairwise Outranks)
    (hothers : others.Pairwise Outranks) (hmem : ∀ p, p ∈ policies ↔ p ∈ others) :
    policies = others := by
  have hdistinct : ∀ {l : List Policy}, l.Pairwise Outranks → l.Nodup := by
    intro l hl
    refine hl.imp ?_
    rintro p _ h rfl
    exact not_outranks_of_outranks h h
  have hperm : policies.Perm others :=
    (List.perm_ext_iff_of_nodup (hdistinct hranked) (hdistinct hothers)).mpr hmem
  refine hperm.eq_of_pairwise ?_ hranked hothers
  intro p q _ _ hpq hqp
  exact absurd hqp (not_outranks_of_outranks hpq)

end Policy

/-! ## The first match -/

/-- A search ends with the first match, and otherwise has visited all. -/
theorem search_cases (r : Request) (t : TimeOfDay) (policies : List Policy) :
    (∃ front p back, policies = front ++ p :: back ∧ (∀ q ∈ front, q.applies r t = false) ∧
      p.applies r t = true ∧
      search r t policies = (some p, front.map TraceEntry.skipped ++ [TraceEntry.decided p])) ∨
    ((∀ q ∈ policies, q.applies r t = false) ∧
      search r t policies = (none, policies.map TraceEntry.skipped)) := by
  induction policies with
  | nil => exact .inr ⟨by simp, rfl⟩
  | cons first rest ih =>
      by_cases hfirst : first.applies r t = true
      · refine .inl ⟨[], first, rest, rfl, by simp, hfirst, ?_⟩
        rw [search, if_pos hfirst]
        rfl
      · rw [search, if_neg hfirst]
        rw [Bool.not_eq_true] at hfirst
        rcases ih with ⟨front, p, back, rfl, hfront, hp, hsearch⟩ | ⟨hnone, hsearch⟩
        · refine .inl ⟨first :: front, p, back, rfl, ?_, hp, by rw [hsearch]; rfl⟩
          intro q hq
          rcases List.mem_cons.mp hq with rfl | hold
          · exact hfirst
          · exact hfront q hold
        · refine .inr ⟨?_, by rw [hsearch]; rfl⟩
          intro q hq
          rcases List.mem_cons.mp hq with rfl | hold
          · exact hfirst
          · exact hnone q hold

/-- The policy that a search ends with is the first that applies. -/
theorem search_winner (r : Request) (t : TimeOfDay) (policies : List Policy) :
    (search r t policies).1 = policies.find? (·.applies r t) := by
  induction policies with
  | nil => rfl
  | cons p rest ih =>
      rw [search, List.find?_cons]
      cases p.applies r t with
      | true => rfl
      | false => exact ih

/-! ## The policy that decides -/

/-- Whether the conditions of a policy match a request at a local time, as its document
says. -/
def Policy.Matches (p : Policy) (r : Request) (t : TimeOfDay) : Prop :=
  (Conditions.ofDocument (p.conditions.getD "")).matches r t = true

theorem Policy.matches_iff {p : Policy} {r : Request} {t : TimeOfDay} :
    p.Matches r t ↔ p.applies r t = true :=
  Iff.rfl

theorem Policy.not_matches_iff {p : Policy} {r : Request} {t : TimeOfDay} :
    ¬ p.Matches r t ↔ p.applies r t = false := by
  rw [matches_iff, Bool.not_eq_true]

/-- Whether a policy decides a request at a local time: it contends and matches,
and no other contender that matches outranks it. -/
structure Policy.Decides (found : List Policy) (now : Instant) (r : Request) (t : TimeOfDay)
    (p : Policy) : Prop where
  contends : p.Contends found now
  applies : p.Matches r t
  best : ∀ q : Policy, q.Contends found now → q.Matches r t → q ≠ p → ¬ q.Outranks p

/-- The first policy in force that applies is the one that decides, as rank is strict. -/
theorem Policy.decides_of_first {found front back : List Policy} {now : Instant} {r : Request}
    {t : TimeOfDay} {p : Policy} (hsplit : inForce (distinct found) now = front ++ p :: back)
    (hfront : ∀ q ∈ front, q.applies r t = false) (hp : p.applies r t = true) :
    Decides found now r t p ∧ ∀ q, Decides found now r t q → q = p := by
  have hranked := inForce_distinct_ranked found now
  rw [hsplit, List.pairwise_append] at hranked
  have hback : ∀ q ∈ back, p.Outranks q := by
    intro q hq
    exact (List.pairwise_cons.mp hranked.2.1).1 q hq
  have hplace : ∀ q : Policy, q.Contends found now → q.Matches r t → q = p ∨ q ∈ back := by
    intro q hq hmatches
    have happlies := Policy.matches_iff.mp hmatches
    have hmem := mem_inForce_distinct.mpr hq
    rw [hsplit] at hmem
    rcases List.mem_append.mp hmem with hearly | hrest
    · rw [hfront q hearly] at happlies
      cases happlies
    · exact List.mem_cons.mp hrest
  have hcontends : p.Contends found now := by
    rw [← mem_inForce_distinct, hsplit]
    exact List.mem_append_right _ List.mem_cons_self
  constructor
  · refine ⟨hcontends, hp, ?_⟩
    intro q hq happlies hother
    rcases hplace q hq happlies with rfl | hlater
    · exact absurd rfl hother
    · exact not_outranks_of_outranks (hback q hlater)
  · intro q hq
    rcases hplace q hq.contends hq.applies with heq | hlater
    · exact heq
    · apply Decidable.byContradiction
      intro hne
      exact hq.best p hcontends hp (Ne.symm hne) (hback q hlater)

/-! ## What a policy decides, and why -/

/-- How a policy decides by its document of rules: by the first enabled rule in order of
falling priority, where rules of one priority stand as they came, or by the default
where no rule is enabled. -/
inductive Policy.DecidesBy (p : Policy) : Decision → Option String → Prop
  | rule (w : Rule) (others : List Rule)
      (hranking : IsRanking Rule.priority
        ((Rules.ofDocument (p.rules.getD "")).rules.filter (·.enabled)) (w :: others)) :
      p.DecidesBy w.decision (some w.id)
  | default (hnone : ∀ x ∈ (Rules.ofDocument (p.rules.getD "")).rules, x.enabled = false) :
      p.DecidesBy (Rules.ofDocument (p.rules.getD "")).default none

/-- The text of a reason: it names the policy, and the rule that matched or the default
action. -/
inductive Policy.GivesReason (p : Policy) : Option String → String → Prop
  | rule (id : String) :
      p.GivesReason (some id) ("policy '" ++ p.name ++ "' matched rule '" ++ id ++ "'")
  | default : p.GivesReason none ("policy '" ++ p.name ++ "' applied its default action")

/-- What the rules of a policy come to is what it decides by them. -/
theorem Policy.decidesBy_iff {p : Policy} {decision : Decision} {ruleId : Option String} :
    p.DecidesBy decision ruleId ↔ p.outcome = ⟨decision, ruleId⟩ := by
  rw [outcome, Rules.decide_eq]
  constructor
  · rintro (⟨w, others, hranking⟩ | hnone)
    · rw [Rules.winner?_eq_head? hranking]
      rfl
    · rw [Rules.winner?_eq_none_iff.mpr hnone]
      rfl
  · intro h
    have hranking := isRanking_mergeSort Rule.priority
      ((Rules.ofDocument (p.rules.getD "")).rules.filter (·.enabled))
    rw [Rules.winner?_eq_head? hranking] at h
    generalize List.mergeSort _ _ = ranked at h hranking
    cases ranked with
    | nil =>
        simp only [List.head?_nil, Rules.outcomeOf, Option.elim_none, RuleOutcome.mk.injEq] at h
        obtain ⟨rfl, rfl⟩ := h
        exact .default (Rules.winner?_eq_none_iff.mp (Rules.winner?_eq_head? hranking))
    | cons w others =>
        simp only [List.head?_cons, Rules.outcomeOf, Option.elim_some, RuleOutcome.mk.injEq] at h
        obtain ⟨rfl, rfl⟩ := h
        exact .rule w others hranking

theorem Policy.decidesBy_outcome (p : Policy) :
    p.DecidesBy p.outcome.decision p.outcome.ruleId := by
  rw [decidesBy_iff]

theorem Policy.givesReason_reasonOf (p : Policy) :
    p.GivesReason p.outcome.ruleId (reasonOf p) := by
  rw [reasonOf]
  cases p.outcome.ruleId with
  | none => exact .default
  | some id => exact .rule id

theorem Policy.givesReason_rule_iff {p : Policy} {id reason : String} :
    p.GivesReason (some id) reason ↔
      reason = "policy '" ++ p.name ++ "' matched rule '" ++ id ++ "'" := by
  constructor
  · rintro ⟨⟩
    rfl
  · rintro rfl
    exact .rule id

/-- What a verdict says where a policy decides, by one of its rules or by its default. -/
structure Verdict.SaysPolicy (v : Verdict) (p : Policy) (ruleId : Option String) : Prop where
  decision : p.DecidesBy v.decision ruleId
  reason : p.GivesReason ruleId v.reason
  policyKey : v.policyKey = some p.key
  policyName : v.policyName = some p.name

theorem Verdict.SaysPolicy.outcome {v : Verdict} {p : Policy} {ruleId : Option String}
    (h : v.SaysPolicy p ruleId) : p.outcome = ⟨v.decision, ruleId⟩ :=
  Policy.decidesBy_iff.mp h.decision

theorem Verdict.SaysPolicy.decision_eq {v : Verdict} {p : Policy} {ruleId : Option String}
    (h : v.SaysPolicy p ruleId) : v.decision = p.outcome.decision := by
  rw [h.outcome]

/-- What a verdict says where no policy decides. -/
structure Verdict.SaysNone (v : Verdict) (c : Config) : Prop where
  decision : v.decision = c.noMatch
  policyKey : v.policyKey = none
  policyName : v.policyName = none

section

variable {c : Config} {r : Request} {policies : List Policy} {now : Instant}

theorem rule_trace : (rule c r policies now).verdict.trace =
    if c.details then
      some (search r (.ofInstant now c.utcOffset) (Policy.inForce policies now)).2
    else none := by
  rw [rule]

theorem rule_saysPolicy {p : Policy}
    (h : (search r (.ofInstant now c.utcOffset) (Policy.inForce policies now)).1 = some p) :
    (rule c r policies now).verdict.SaysPolicy p p.outcome.ruleId := by
  simp only [rule, h, Option.elim_some, verdictOf, Verdict.make]
  constructor
  · dsimp only
    exact p.decidesBy_outcome
  · dsimp only
    exact p.givesReason_reasonOf
  · dsimp only
  · dsimp only

theorem rule_saysNone
    (h : (search r (.ofInstant now c.utcOffset) (Policy.inForce policies now)).1 = none) :
    (rule c r policies now).verdict.SaysNone c := by
  constructor <;> simp [rule, h, verdictOfNone, Verdict.make]

end

namespace Deployment

/-- With an empty cache, the one contender that matches and is outranked by no
other match decides, by its first enabled rule or its default, and the verdict says so;
where there is no match the settings decide. The trace lists the contenders by rank, up
to the one that decides, and what that decided by which rule. -/
theorem evaluation_chooses {d : Deployment} (hempty : d.cache.entries = [])
    (horder : d.storeInOrder) {r : Request} (hfit : r.defect? = none) :
    let found := d.backend.found r.tenant
    let t := TimeOfDay.ofInstant d.clock d.config.utcOffset
    let traced (entries : List TraceEntry) := if d.config.details then some entries else none
    ∃ v visited rest, (d.evaluation r).result = some (.ok v) ∧
      (visited ++ rest).Pairwise Policy.Outranks ∧
      (∀ p, p ∈ visited ++ rest ↔ p.Contends found d.clock) ∧
      ((∃ front p ruleId, visited = front ++ [p] ∧ (∀ q ∈ front, ¬ q.Matches r t) ∧
        p.Decides found d.clock r t ∧
        (∀ q : Policy, q.Decides found d.clock r t → q = p) ∧ v.SaysPolicy p ruleId ∧
        v.trace = traced (front.map (fun q => ⟨q.key, q.priority, false, none, none⟩) ++
          [⟨p.key, p.priority, true, some v.decision, ruleId⟩])) ∨
      ((∀ p : Policy, p.Contends found d.clock → ¬ p.Matches r t) ∧ rest = [] ∧
        v.SaysNone d.config ∧
        v.trace = traced (visited.map fun q => ⟨q.key, q.priority, false, none, none⟩))) := by
  intro found t traced
  have hresult := evaluation_empty hempty horder hfit
  have hranked := Policy.inForce_distinct_ranked found d.clock
  have hmem := fun p => @Policy.mem_inForce_distinct found d.clock p
  rcases search_cases r t (Policy.inForce (Policy.distinct found) d.clock) with
    ⟨front, p, back, hsplit, hfront, hp, hsearch⟩ | ⟨hnone, hsearch⟩
  · obtain ⟨hdecides, hunique⟩ := Policy.decides_of_first hsplit hfront hp
    have hall : front ++ [p] ++ back = Policy.inForce (Policy.distinct found) d.clock := by
      rw [hsplit, List.append_assoc]
      rfl
    have hverdict := rule_saysPolicy (c := d.config) (congrArg Prod.fst hsearch)
    refine ⟨_, front ++ [p], back, hresult, by rw [hall]; exact hranked, ?_,
      .inl ⟨front, p, _, rfl, ?_, hdecides, hunique, hverdict, ?_⟩⟩
    · intro q
      rw [hall]
      exact hmem q
    · exact fun q hq => Policy.not_matches_iff.mpr (hfront q hq)
    · rw [rule_trace]
      change traced _ = _
      rw [hsearch, TraceEntry.decided, hverdict.outcome]
      rfl
  · have hverdict := rule_saysNone (c := d.config) (congrArg Prod.fst hsearch)
    refine ⟨_, Policy.inForce (Policy.distinct found) d.clock, [], hresult, ?_, ?_,
      .inr ⟨?_, rfl, hverdict, ?_⟩⟩
    · rw [List.append_nil]
      exact hranked
    · intro q
      rw [List.append_nil]
      exact hmem q
    · exact fun q hq => Policy.not_matches_iff.mpr (hnone q ((hmem q).mpr hq))
    · rw [rule_trace]
      change traced _ = _
      rw [hsearch]
      rfl

/-- A policy that looks at addresses, of which the sample request has none. -/
def sampleCloister : Policy :=
  { Sample.policy with
    key := "cloister"
    name := "Cloister"
    priority := 9
    conditions := some "\x7b\"ipConditions\":\x7b\"allowedIps\":[\"10.0.0.1\"]\x7d\x7d"
    effectiveFrom := none }

/-- A policy with two rules, the second of which has the higher priority. -/
def sampleWatch : Policy :=
  { Sample.policy with
    key := "watch"
    name := "Night watch"
    priority := 7
    rules := some ("\x7b\"rules\":[\x7b\"id\":\"calm\",\"action\":\"ALLOW\",\"priority\":1\x7d," ++
      "\x7b\"id\":\"alarm\",\"action\":\"DENY\",\"priority\":5\x7d]\x7d")
    effectiveFrom := none }

/-- A policy of a lower priority that allows whatever is asked. -/
def sampleOpen : Policy :=
  { Sample.policy with effectiveFrom := none }

/-- An engine over the three that traces what it visits. -/
def sampleWatched : Deployment :=
  { Sample.deployment 0 with
    config := { Config.standard with details := true }
    backend := .memory ⟨[sampleOpen, sampleWatch, sampleCloister], 0⟩ }

/-- All three contend. -/
theorem sampleWatched_contends (p : Policy) :
    p.Contends (sampleWatched.backend.found Sample.request.tenant) sampleWatched.clock ↔
      p ∈ [sampleCloister, sampleWatch, sampleOpen] := by
  have hfound : (Policy.distinct (sampleWatched.backend.found Sample.request.tenant)).filter
      (fun p => p.isCandidate && p.isEffectiveAt sampleWatched.clock) =
        [sampleCloister, sampleWatch, sampleOpen].reverse := by
    decide +kernel
  rw [Policy.contends_iff, hfound, List.mem_reverse]

/-- The one with two rules decides: what outranks it does not match. -/
theorem sampleWatch_decides :
    sampleWatch.Decides (sampleWatched.backend.found Sample.request.tenant) sampleWatched.clock
      Sample.request (.ofInstant sampleWatched.clock sampleWatched.config.utcOffset) := by
  refine ⟨(sampleWatched_contends _).mpr (by simp), ?_, ?_⟩
  · rw [Policy.matches_iff]
    decide +kernel
  · intro q hcontends hmatches hother
    have hmem := (sampleWatched_contends q).mp hcontends
    simp only [List.mem_cons, List.not_mem_nil, or_false] at hmem
    rcases hmem with rfl | rfl | rfl
    · rw [Policy.matches_iff] at hmatches
      exact absurd hmatches (by decide +kernel)
    · exact absurd rfl hother
    · simp [Policy.Outranks, sampleWatch, sampleOpen, Sample.policy]

theorem evaluation_chooses_sample :
    sampleWatched.cache.entries = [] ∧ sampleWatched.storeInOrder ∧
      Sample.request.defect? = none ∧
      ∃ v, (sampleWatched.evaluation Sample.request).result = some (.ok v) ∧
        v.decision = .deny ∧ v.reason = "policy 'Night watch' matched rule 'alarm'" ∧
        v.policyKey = some "watch" ∧ v.policyName = some "Night watch" ∧
        v.trace = some [⟨"cloister", 9, false, none, none⟩,
          ⟨"watch", 7, true, some .deny, some "alarm"⟩] := by
  have horder : sampleWatched.storeInOrder := ⟨rfl, rfl⟩
  have hfit : Sample.request.defect? = none := by decide +kernel
  have hdecides := sampleWatch_decides
  refine ⟨rfl, horder, hfit, ?_⟩
  obtain ⟨v, visited, rest, hresult, hranked, hmem, hchoice⟩ :=
    evaluation_chooses (d := sampleWatched) rfl horder hfit
  have hvisited : visited ++ rest =
      [sampleCloister, sampleWatch, sampleOpen] := by
    refine Policy.eq_of_ranked hranked ?_ fun p => (hmem p).trans (sampleWatched_contends p)
    simp [Policy.Outranks, sampleCloister, sampleWatch, sampleOpen, Sample.policy]
  rcases hchoice with ⟨front, p, ruleId, hlast, hpassed, -, hunique, hverdict, htrace⟩ | ⟨hnone, -⟩
  · obtain rfl := hunique _ hdecides
    have houtcome : sampleWatch.outcome = ⟨.deny, some "alarm"⟩ := by decide +kernel
    obtain ⟨hdecision, rfl⟩ := RuleOutcome.mk.inj (hverdict.outcome.symm.trans houtcome)
    refine ⟨v, hresult, hdecision, ?_, hverdict.policyKey, hverdict.policyName, ?_⟩
    · rw [Policy.givesReason_rule_iff.mp hverdict.reason]
      decide +kernel
    · have hfront : front = [sampleCloister] := by
        rw [hlast, List.append_assoc] at hvisited
        rcases front with _ | ⟨q, _ | ⟨q', front⟩⟩
        · simp [sampleWatch, sampleCloister] at hvisited
        · simp_all
        · have hsecond : q' = sampleWatch := by simp_all
          exact absurd hdecides.applies (hpassed _ (by simp [hsecond]))
      rw [htrace, hdecision, hfront]
      rfl
  · exact absurd hdecides.applies (hnone _ hdecides.contends)

end Deployment

end DecisionPoint
