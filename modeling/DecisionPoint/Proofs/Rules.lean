import DecisionPoint.Policy.Rules
import DecisionPoint.Proofs.Ranking
import Mathlib.Logic.Relation

/-!
Which rule decides. One pass over the rules, in which a later rule needs a higher
priority, comes to the head of the enabled rules in order of falling priority. Rules that
are switched off, rules that the deciding one comes before, names and condition texts
have no part in it, however many edits of them follow one another.
-/

namespace DecisionPoint

/-- A rule without the texts that have no part in decisions. -/
def Rule.wordless (x : Rule) : Rule :=
  { x with name := "", condition := none }

namespace Rules

/-! ## The deciding rule -/

theorem winnerFrom_disabled {best : Option Rule} {x : Rule} (h : x.enabled = false)
    (rules : List Rule) : winnerFrom best (x :: rules) = winnerFrom best rules := by
  simp only [winnerFrom, h, Bool.false_and, Bool.false_eq_true, if_false]

theorem winnerFrom_enabled {b x : Rule} (h : x.enabled = true) (rules : List Rule) :
    winnerFrom (some b) (x :: rules) =
      winnerFrom (some (if b.priority < x.priority then x else b)) rules := by
  rw [winnerFrom]
  by_cases hhigher : b.priority < x.priority <;> simp [h, hhigher]

/-- What is found from `best` on leads among `best` and the enabled rules to come. -/
theorem winnerFrom_eq_some_iff {best : Option Rule} {rules : List Rule} {w : Rule} :
    winnerFrom best rules = some w ↔
      Leads Rule.priority (best.toList ++ rules.filter (·.enabled)) w := by
  induction rules generalizing best with
  | nil =>
      cases best with
      | none => exact ⟨fun h => (by cases h), fun h => (by cases h.first)⟩
      | some b =>
          constructor
          · rintro ⟨⟩
            exact ⟨by simp, by simp⟩
          · intro h
            have hmem := List.mem_of_find?_eq_some h.first
            simp only [Option.toList, List.filter_nil, List.append_nil, List.mem_singleton]
              at hmem
            rw [winnerFrom, hmem]
  | cons x rest ih =>
      cases henabled : x.enabled with
      | false => rw [winnerFrom_disabled henabled, ih, List.filter_cons_of_neg (by simp [henabled])]
      | true =>
          rw [List.filter_cons_of_pos henabled]
          cases best with
          | none => simp [winnerFrom, henabled, ih]
          | some b =>
              rw [winnerFrom_enabled henabled, ih]
              -- Of the two the one that is not kept gives way to the other.
              by_cases hhigher : b.priority < x.priority
              · rw [if_pos hhigher]
                exact (leads_insert [] _ (.inl ⟨x, List.mem_cons_self, hhigher⟩)).symm
              · rw [if_neg hhigher]
                exact (leads_insert [b] _
                  (.inr ⟨b, List.mem_cons_self, Int32.not_lt.mp hhigher⟩)).symm

theorem winner?_eq_some_iff {r : Rules} {w : Rule} :
    r.winner? = some w ↔ Leads Rule.priority (r.rules.filter (·.enabled)) w :=
  winnerFrom_eq_some_iff

/-- The rule that decides is the head of the enabled rules by falling priority. -/
theorem winner?_eq_head? {r : Rules} {ranked : List Rule}
    (h : IsRanking Rule.priority (r.rules.filter (·.enabled)) ranked) :
    r.winner? = ranked.head? :=
  Option.ext fun _ => winner?_eq_some_iff.trans h.head?_eq_some_iff.symm

theorem winner?_eq_none_iff {r : Rules} :
    r.winner? = none ↔ ∀ x ∈ r.rules, x.enabled = false := by
  have hranking := isRanking_mergeSort Rule.priority (r.rules.filter (·.enabled))
  rw [winner?_eq_head? hranking, List.head?_eq_none_iff, ← List.length_eq_zero_iff,
    hranking.perm.length_eq, List.length_eq_zero_iff, List.filter_eq_nil_iff]
  simp only [Bool.not_eq_true]

def outcomeOf (default : Decision) (winner : Option Rule) : RuleOutcome :=
  winner.elim ⟨default, none⟩ fun w => ⟨w.decision, some w.id⟩

theorem decide_eq (r : Rules) : r.decide = outcomeOf r.default r.winner? := by
  rw [decide]
  cases r.winner? <;> rfl

theorem outcomeOf_eq_default_iff {default : Decision} {winner : Option Rule} :
    outcomeOf default winner = ⟨default, none⟩ ↔ winner = none := by
  cases winner with
  | none => exact ⟨fun _ => rfl, fun _ => rfl⟩
  | some w => simp [outcomeOf]

/-! ## Edits that change nothing -/

/-- An edit of rules that the outcome does not depend on. -/
inductive IdleEdit : List Rule → List Rule → Prop
  | insertDisabled (before after : List Rule) {x : Rule} (hoff : x.enabled = false) :
      IdleEdit (before ++ after) (before ++ x :: after)
  | removeDisabled (before after : List Rule) {x : Rule} (hoff : x.enabled = false) :
      IdleEdit (before ++ x :: after) (before ++ after)
  | insertLower (before after : List Rule) {x w : Rule}
      (hwinner : winnerFrom none (before ++ after) = some w) (hlower : x.priority < w.priority) :
      IdleEdit (before ++ after) (before ++ x :: after)
  | insertBehind (before after : List Rule) {x w : Rule}
      (hwinner : winnerFrom none (before ++ after) = some w) (hbefore : w ∈ before)
      (hequal : x.priority = w.priority) :
      IdleEdit (before ++ after) (before ++ x :: after)
  | reword (before after : List Rule) {x : Rule} (name : String) (condition : Option String) :
      IdleEdit (before ++ x :: after) (before ++ { x with name, condition } :: after)

theorem mem_of_winnerFrom {rules : List Rule} {w : Rule} (h : winnerFrom none rules = some w) :
    w ∈ rules ∧ w.enabled = true :=
  List.mem_filter.mp (List.mem_of_find?_eq_some (winnerFrom_eq_some_iff.mp h).first)

/-- A rule that is switched off decides nothing. -/
theorem winnerFrom_insertDisabled {before after : List Rule} {x : Rule}
    (hoff : x.enabled = false) :
    winnerFrom none (before ++ x :: after) = winnerFrom none (before ++ after) := by
  apply Option.ext
  intro w
  rw [winnerFrom_eq_some_iff, winnerFrom_eq_some_iff, List.filter_append, List.filter_append,
    List.filter_cons_of_neg (by simp [hoff])]

/-- A rule that the deciding one comes before can be put in. -/
theorem winnerFrom_insert {before after : List Rule} {x w : Rule}
    (hwinner : winnerFrom none (before ++ after) = some w)
    (houtdone : x.priority < w.priority ∨ (w ∈ before ∧ x.priority ≤ w.priority)) :
    winnerFrom none (before ++ x :: after) = winnerFrom none (before ++ after) := by
  cases henabled : x.enabled with
  | false => exact winnerFrom_insertDisabled henabled
  | true =>
      obtain ⟨hmem, hon⟩ := mem_of_winnerFrom hwinner
      apply Option.ext
      intro v
      rw [winnerFrom_eq_some_iff, winnerFrom_eq_some_iff, List.filter_append, List.filter_append,
        List.filter_cons_of_pos henabled]
      apply leads_insert
      rcases houtdone with hlower | ⟨hbefore, hle⟩
      · left
        refine ⟨w, ?_, hlower⟩
        rw [← List.filter_append]
        exact List.mem_filter.mpr ⟨hmem, hon⟩
      · right
        exact ⟨w, List.mem_filter.mpr ⟨hbefore, hon⟩, hle⟩

/-- Texts have no part in which rule decides. -/
theorem winnerFrom_wordless (best : Option Rule) (rules : List Rule) :
    winnerFrom (best.map Rule.wordless) (rules.map Rule.wordless) =
      (winnerFrom best rules).map Rule.wordless := by
  induction rules generalizing best with
  | nil => rfl
  | cons x rest ih =>
      rw [List.map_cons, winnerFrom, winnerFrom, ← ih, apply_ite (Option.map Rule.wordless)]
      cases best <;> rfl

/-- Rules that differ in their texts only come to the same. -/
theorem outcomeOf_wordless (default : Decision) (rules : List Rule) :
    outcomeOf default (winnerFrom none (rules.map Rule.wordless)) =
      outcomeOf default (winnerFrom none rules) := by
  have hwordless := winnerFrom_wordless none rules
  rw [Option.map_none] at hwordless
  rw [hwordless]
  cases winnerFrom none rules <;> rfl

/-- One edit leaves the outcome as it is. -/
theorem IdleEdit.outcomeOf_eq {rules edited : List Rule} (h : IdleEdit rules edited)
    (default : Decision) :
    outcomeOf default (winnerFrom none edited) = outcomeOf default (winnerFrom none rules) := by
  cases h with
  | insertDisabled before after hoff => rw [winnerFrom_insertDisabled hoff]
  | removeDisabled before after hoff => rw [winnerFrom_insertDisabled hoff]
  | insertLower before after hwinner hlower => rw [winnerFrom_insert hwinner (.inl hlower)]
  | insertBehind before after hwinner hbefore hequal =>
      rw [winnerFrom_insert hwinner (.inr ⟨hbefore, hequal ▸ Int32.le_refl _⟩)]
  | reword before after name condition =>
      rw [← outcomeOf_wordless default (before ++ _), ← outcomeOf_wordless default (before ++ _)]
      simp only [List.map_append, List.map_cons, Rule.wordless]

/-- Any number of edits leaves the outcome as it is. -/
theorem outcomeOf_edited {rules edited : List Rule} (h : Relation.ReflTransGen IdleEdit rules edited)
    (default : Decision) :
    outcomeOf default (winnerFrom none edited) = outcomeOf default (winnerFrom none rules) := by
  induction h with
  | refl => rfl
  | tail _ hedit ih => exact (hedit.outcomeOf_eq default).trans ih

/-- The first enabled rule by falling priority decides, where rules of one priority keep
their order; without an enabled rule the default decision stands, and only then. Idle
edits leave the outcome as it is. -/
theorem decide_ranked (r : Rules) :
    (∃ ranked, IsRanking Rule.priority (r.rules.filter (·.enabled)) ranked) ∧
    (∀ ranked, IsRanking Rule.priority (r.rules.filter (·.enabled)) ranked →
      r.decide = ranked.head?.elim ⟨r.default, none⟩ fun w => ⟨w.decision, some w.id⟩) ∧
    (r.decide = ⟨r.default, none⟩ ↔ ∀ x ∈ r.rules, x.enabled = false) ∧
    ∀ edited, Relation.ReflTransGen IdleEdit r.rules edited →
      { r with rules := edited }.decide = r.decide := by
  refine ⟨⟨_, isRanking_mergeSort _ _⟩, ?_, ?_, ?_⟩
  · intro ranked h
    rw [decide_eq, winner?_eq_head? h]
    rfl
  · rw [decide_eq, outcomeOf_eq_default_iff, winner?_eq_none_iff]
  · intro edited h
    rw [decide_eq, decide_eq]
    exact outcomeOf_edited h r.default

def sampleRule (id : String) (priority : Int32) : Rule :=
  { Rule.blank with id, priority, decision := .deny }

/-- Two rules of the highest priority behind one of a lower priority. -/
def sampleRules : Rules :=
  ⟨.allow, .first, [sampleRule "low" 1, sampleRule "first" 7, sampleRule "second" 7]⟩

/-- The same rules after a rule that is switched off, one of lower priority and one of the
highest were put in, and the deciding one was renamed. -/
def sampleEdited : List Rule :=
  [{ sampleRule "off" 100 with enabled := false }, sampleRule "low" 1, sampleRule "middle" 3,
    { sampleRule "first" 7 with name := "Night shift", condition := some "never" },
    sampleRule "second" 7, sampleRule "third" 7]

theorem decide_ranked_sample :
    (∃ ranked, IsRanking Rule.priority (sampleRules.rules.filter (·.enabled)) ranked ∧
      ranked.head? = some (sampleRule "first" 7)) ∧
    sampleRules.decide = ⟨.deny, some "first"⟩ ∧
    Relation.ReflTransGen IdleEdit sampleRules.rules sampleEdited ∧
    { sampleRules with rules := sampleEdited }.decide = ⟨.deny, some "first"⟩ := by
  obtain ⟨⟨ranked, hranking⟩, hhead, -, hedits⟩ := decide_ranked sampleRules
  have hwinner : ranked.head? = some (sampleRule "first" 7) := by
    rw [← winner?_eq_head? hranking]
    rfl
  have hdecision : sampleRules.decide = ⟨.deny, some "first"⟩ := by
    rw [hhead ranked hranking, hwinner]
    rfl
  have hedited : Relation.ReflTransGen IdleEdit sampleRules.rules sampleEdited := by
    refine .tail (.tail (.tail (.tail .refl
      (.insertDisabled [] _ (x := { sampleRule "off" 100 with enabled := false }) rfl))
      (.insertLower [_, sampleRule "low" 1] _ (x := sampleRule "middle" 3)
        (w := sampleRule "first" 7) rfl (by decide)))
      (.insertBehind [_, _, _, sampleRule "first" 7, sampleRule "second" 7] []
        (x := sampleRule "third" 7) (w := sampleRule "first" 7) rfl (by simp) rfl))
      (.reword [_, _, _] _ "Night shift" (some "never"))
  exact ⟨⟨ranked, hranking, hwinner⟩, hdecision, hedited, (hedits _ hedited).trans hdecision⟩

end Rules

end DecisionPoint
