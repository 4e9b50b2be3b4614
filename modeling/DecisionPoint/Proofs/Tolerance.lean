import DecisionPoint.Engine
import DecisionPoint.Proofs.Cache.Key
import DecisionPoint.Proofs.Questions

/-!
What is of no use counts as nothing. An evaluation goes the same way whether
the cache answers with an error, too late or with a text that is no record, or
finds nothing at all; and whether a policy has a document that cannot be read,
or has none.
-/

namespace DecisionPoint

open Time (Instant TimeOfDay)

/-! ## Answers of the cache -/

def Timed.text? (budget : Nat) (answer : Timed (Except CacheError (Option String))) :
    Option String :=
  match answer.outcome with
  | .ok (some text) => if budget < answer.elapsed then none else some text
  | _ => none

def verdictIn? (c : Config) (answer : Timed (Except CacheError (Option String))) :
    Option Verdict :=
  (answer.text? c.cacheBudget).bind Verdict.ofText?

def listIn? (c : Config) (answer : Timed (Except CacheError (Option String))) :
    Option (List Policy) :=
  (answer.text? c.cacheBudget).bind Policy.listOfText?

theorem readText_eq (budget : Nat) (key : String) :
    DecisionCache.readText budget key =
      (do return (← Dialogue.query (.cacheGet key)).text? budget) := by
  unfold DecisionCache.readText
  congr 1
  funext answer
  obtain ⟨outcome, elapsed⟩ := answer
  cases outcome with
  | error e => rfl
  | ok found =>
      cases found with
      | none => rfl
      | some text => rfl

theorem getDecision_eq (c : Config) (r : Request) :
    DecisionCache.getDecision c r =
      (do return verdictIn? c (← Dialogue.query (.cacheGet (Key.decision r)))) := by
  rw [DecisionCache.getDecision, readText_eq]
  rfl

theorem keptCandidates_eq (c : Config) (tenant : Option String) :
    Engine.keptCandidates c tenant =
      if c.cacheCandidates then
        (do return listIn? c (← Dialogue.query (.cacheGet (Key.candidates tenant))))
      else return none := by
  rw [Engine.keptCandidates, DecisionCache.getCandidates, readText_eq]
  rfl

/-! ## Answers of no use -/

/-- Two courses differ in the answers alone. -/
structure Course.Alike (x y : Course α σ) : Prop where
  result : x.result = y.result
  state : x.state = y.state
  questions : x.transcript.map Exchange.question = y.transcript.map Exchange.question

theorem Course.Alike.refl (x : Course α σ) : x.Alike x :=
  ⟨rfl, rfl, rfl⟩

theorem Course.Alike.andThen {x y : Course α σ} {f g : α → σ → Course β σ} (h : x.Alike y)
    (hrest : ∀ a s, (f a s).Alike (g a s)) : (x.andThen f).Alike (y.andThen g) := by
  obtain ⟨result, transcript, state⟩ := x
  obtain ⟨result', transcript', state'⟩ := y
  obtain ⟨rfl, rfl, hquestions⟩ := h
  cases result with
  | none => exact ⟨rfl, rfl, hquestions⟩
  | some a =>
      obtain ⟨hresult, hstate, hrest⟩ := hrest a state
      refine ⟨hresult, hstate, ?_⟩
      simp only [Course.andThen, List.map_append, hquestions, hrest]

/-- Whether an answer of the cache is of use to the evaluation of a request: a
verdict under the key of the request, and candidates under any other. -/
def isOfUse (c : Config) (r : Request) (key : String)
    (answer : Timed (Except CacheError (Option String))) : Bool :=
  if key = Key.decision r then (verdictIn? c answer).isSome else (listIn? c answer).isSome

/-- The same collaborators, but that the cache finds nothing, at once, where its
answer is of no use. -/
def forgetting (c : Config) (r : Request) (collaborators : Collaborators σ) : Collaborators σ
  | .cacheGet key, s =>
    let (answer, s) := collaborators (.cacheGet key) s
    (answer.map fun found => if isOfUse c r key found then found else ⟨.ok none, 0⟩, s)
  | question, s => collaborators question s

section Forgetting

variable (c : Config) (r : Request) (collaborators : Collaborators σ)

/-- A dialogue takes no notice of answers of no use. -/
def Unheeding (x : Dialogue α) : Prop :=
  ∀ s, (x.run (forgetting c r collaborators) s).Alike (x.run collaborators s)

variable {c r collaborators}

theorem unheeding_pure (a : α) : Unheeding c r collaborators (pure a) :=
  fun _ => ⟨rfl, rfl, rfl⟩

theorem Unheeding.bind {x : Dialogue α} {f : α → Dialogue β} (hx : Unheeding c r collaborators x)
    (hf : ∀ a, Unheeding c r collaborators (f a)) : Unheeding c r collaborators (x >>= f) := by
  intro s
  rw [Dialogue.run_bind, Dialogue.run_bind]
  exact (hx s).andThen hf

/-- A dialogue that reads no key has no answer to take notice of. -/
theorem unheeding_of_asks {x : Dialogue α}
    (h : x.Asks fun question => ∀ key, question ≠ .cacheGet key) :
    Unheeding c r collaborators x := by
  have hsame : ∀ question s t, (∀ key, question ≠ .cacheGet key) → s = t →
      (forgetting c r collaborators question s).1 = (collaborators question t).1 ∧
        (forgetting c r collaborators question s).2 = (collaborators question t).2 := by
    rintro question s _ hquestion rfl
    cases question with
    | cacheGet key => exact absurd rfl (hquestion key)
    | _ => exact ⟨rfl, rfl⟩
  intro s
  obtain ⟨hresult, htranscript, hstate⟩ := h.run_agrees hsame (rfl : s = s)
  exact ⟨hresult, hstate, congrArg (List.map Exchange.question) htranscript⟩

theorem unheeding_read {key : String}
    {f : Timed (Except CacheError (Option String)) → Option α} (hnothing : f ⟨.ok none, 0⟩ = none)
    (huse : ∀ answer, isOfUse c r key answer = false → f answer = none) :
    Unheeding c r collaborators (do return f (← Dialogue.query (.cacheGet key))) := by
  intro s
  simp only [Dialogue.run_bind, Dialogue.query, Dialogue.run, forgetting]
  cases collaborators (.cacheGet key) s with
  | mk answer after =>
    cases answer with
    | none => exact Course.Alike.refl _
    | some answer =>
        have hsame : f (if isOfUse c r key answer then answer else ⟨.ok none, 0⟩) = f answer := by
          cases husable : isOfUse c r key answer with
          | true => rfl
          | false =>
              rw [huse answer husable]
              exact hnothing
        exact ⟨congrArg some hsame, rfl, rfl⟩

theorem unheeding_getDecision : Unheeding c r collaborators (DecisionCache.getDecision c r) := by
  rw [getDecision_eq]
  apply unheeding_read rfl
  intro answer huse
  rw [isOfUse, if_pos rfl] at huse
  exact Option.isNone_iff_eq_none.mp (Option.isSome_eq_false_iff.mp huse)

theorem unheeding_keptCandidates (tenant : Option String) :
    Unheeding c r collaborators (Engine.keptCandidates c tenant) := by
  rw [keptCandidates_eq]
  split
  · apply unheeding_read rfl
    intro answer huse
    rw [isOfUse, if_neg (Key.decision_ne_candidates r tenant).symm] at huse
    exact Option.isNone_iff_eq_none.mp (Option.isSome_eq_false_iff.mp huse)
  · exact unheeding_pure _

/-- An answer of no use leaves the loading of candidates as an empty one does. -/
theorem unheeding_candidates (tenant : Option String) (now : Instant) :
    Unheeding c r collaborators (Engine.candidates c tenant now) := by
  rw [candidates_eq]
  apply (unheeding_keptCandidates tenant).bind
  intro kept
  cases kept with
  | some policies => exact unheeding_pure _
  | none => exact unheeding_of_asks (asks_newCandidates (by simp) (by simp) (by simp) _ _)

/-- An evaluation takes no notice of answers of no use: it goes as if the cache
had found nothing. -/
theorem unheeding_evaluate : Unheeding c r collaborators (Engine.evaluate c r) := by
  unfold Engine.evaluate
  cases r.defect? with
  | some cause => exact unheeding_pure _
  | none =>
      apply unheeding_getDecision.bind
      intro kept
      cases kept with
      | some v => exact unheeding_pure _
      | none =>
          apply (unheeding_of_asks (Dialogue.asks_query (by simp))).bind
          intro now
          apply (unheeding_candidates r.tenant now).bind
          intro outcome
          cases outcome with
          | error e => exact unheeding_pure _
          | ok policies => exact unheeding_of_asks (asks_conclude (by simp) (by simp) _ _)

end Forgetting

/-! ## Documents that cannot be read -/

/-- A document, where there is one that can be read. -/
def readable? (read : String → Option α) (document : Option String) : Option String :=
  document.filter fun text => (read (Text.trim text)).isSome

theorem readDocument_empty (blank : α) (read : String → Option α) :
    readDocument blank read "" = blank := by
  rw [readDocument]
  exact if_pos (.inl (by decide))

/-- A document that cannot be read is read like one that is not there. -/
theorem readDocument_readable? (blank : α) (read : String → Option α)
    (document : Option String) :
    readDocument blank read ((readable? read document).getD "") =
      readDocument blank read (document.getD "") := by
  cases document with
  | none => rfl
  | some text =>
      cases hread : read (Text.trim text) with
      | some a => simp only [readable?, Option.filter_some, hread, Option.isSome_some, if_true]
      | none =>
          have hblank : readDocument blank read text = blank := by
            simp only [readDocument, hread, Option.getD_none, ite_self]
          simp only [readable?, Option.filter_some, hread, Option.isSome_none,
            Bool.false_eq_true, if_false, Option.getD_none, Option.getD_some, hblank,
            readDocument_empty]

namespace Policy

/-- A policy without the documents that cannot be read. -/
def mended (p : Policy) : Policy :=
  { p with
    rules := readable? (fun s => (Json.Value.ofText? s).bind Rules.ofJson?) p.rules
    conditions := readable? (fun s => (Json.Value.ofText? s).bind Conditions.ofJson?) p.conditions
    actions := readable? (fun s => (Json.Value.ofStrictText? s).bind Action.listOfJson?) p.actions }

theorem key_mended (p : Policy) : p.mended.key = p.key :=
  rfl

theorem name_mended (p : Policy) : p.mended.name = p.name :=
  rfl

theorem applies_mended (p : Policy) (r : Request) (t : TimeOfDay) :
    p.mended.applies r t = p.applies r t :=
  congrArg (fun c : Conditions => c.matches r t) (readDocument_readable? _ _ p.conditions)

theorem outcome_mended (p : Policy) : p.mended.outcome = p.outcome :=
  congrArg Rules.decide (readDocument_readable? _ _ p.rules)

theorem actionList_eq (p : Policy) : p.actionList = Action.ofDocument (p.actions.getD "") := by
  rw [actionList]
  cases p.actions with
  | none => exact (readDocument_empty _ _).symm
  | some text => rw [Option.elim_some, Option.getD_some]

theorem actionList_mended (p : Policy) : p.mended.actionList = p.actionList := by
  rw [actionList_eq, actionList_eq]
  exact readDocument_readable? _ _ p.actions

theorem decided_mended (p : Policy) : TraceEntry.decided p.mended = TraceEntry.decided p := by
  have hpriority : p.mended.priority = p.priority := rfl
  simp only [TraceEntry.decided, outcome_mended, key_mended, hpriority]

theorem verdictOf_mended (p : Policy) (now : Instant) :
    verdictOf p.mended now = verdictOf p now := by
  simp only [verdictOf, reasonOf, outcome_mended, key_mended, name_mended]

/-- Documents that cannot be read are taken for none in the search. -/
theorem search_mended (r : Request) (t : TimeOfDay) (policies : List Policy) :
    search r t (policies.map mended) =
      ((search r t policies).1.map mended, (search r t policies).2) := by
  induction policies with
  | nil => rfl
  | cons p ps ih =>
      rw [List.map_cons, search, search, applies_mended]
      split
      · rw [decided_mended]
        rfl
      · rw [ih]
        rfl

theorem inForce_mended (policies : List Policy) (now : Instant) :
    inForce (policies.map mended) now = (inForce policies now).map mended := by
  -- The order looks at priorities and keys, which stay.
  rw [inForce, inForce, List.filter_map]
  exact (List.map_mergeSort (f := mended) fun p _ q _ => rfl).symm

theorem nextChange_mended (policies : List Policy) (now : Instant) :
    nextChange (policies.map mended) now = nextChange policies now := by
  rw [nextChange, nextChange, List.flatMap_map]
  rfl

theorem distinctBeyond_mended (seen : List String) (policies : List Policy) :
    distinctBeyond seen (policies.map mended) = (distinctBeyond seen policies).map mended := by
  induction policies generalizing seen with
  | nil => rfl
  | cons p ps ih =>
      rw [List.map_cons, distinctBeyond, distinctBeyond, key_mended, ih, ih]
      split
      · rfl
      · rfl

end Policy

/-- What a request is decided to is the same without the documents that cannot
be read. -/
theorem rule_mended (c : Config) (r : Request) (policies : List Policy) (now : Instant) :
    rule c r (policies.map Policy.mended) now =
      { rule c r policies now with winner := (rule c r policies now).winner.map Policy.mended } := by
  simp only [rule, Policy.inForce_mended, Policy.search_mended, Policy.nextChange_mended]
  cases (search r (.ofInstant now c.utcOffset) (Policy.inForce policies now)).1 with
  | none => rfl
  | some p =>
      simp only [Option.map_some, Option.elim_some, Policy.verdictOf_mended]

/-- The actions that a decision leads to are the same without the documents that
cannot be read. -/
theorem dispatchActions_mended (c : Config) (r : Request) (policies : List Policy)
    (now : Instant) :
    Engine.dispatchActions (rule c r (policies.map Policy.mended) now) r =
      Engine.dispatchActions (rule c r policies now) r := by
  rw [rule_mended]
  unfold Engine.dispatchActions
  cases (rule c r policies now).winner with
  | none => rfl
  | some p =>
      exact congrArg (fun actions => (if actions.isEmpty then pure () else
        Dialogue.query (.dispatch actions
          (Engine.contextOf p r (rule c r policies now).verdict)) : Dialogue Unit))
        p.actionList_mended

end DecisionPoint
