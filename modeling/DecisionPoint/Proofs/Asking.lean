import DecisionPoint.Proofs.Tolerance
import DecisionPoint.Proofs.Transcript

/-!
What an evaluation asks. It asks the cache for the verdict, then the clock, then
the cache for the candidates, and then the store, and keeps what came of it. No
call of the cache is made twice, so the faults of a key are those of single calls.

Where the cache gives neither verdict nor candidates, the store is asked, first for
the policies of no tenant and then for those of the tenant. An evaluation of a fit
request fails there and nowhere else. All of this is said of the answers that the
collaborators have for these questions, whatever the dialogue makes of them.
-/

namespace DecisionPoint

open Time (Instant)
open Dialogue (Asks Held asks_pure asks_query)

/-! ## Calls of the cache -/

/-- A call of the cache: what it does, and to which key. -/
inductive CacheCall where
  | get (key : String)
  | set (key : String)
  | delete (key : String)
  | deleteAll (start : String)
deriving DecidableEq

def Question.call? : Question → Option CacheCall
  | .cacheGet key => some (.get key)
  | .cacheSet key _ _ => some (.set key)
  | .cacheDelete key => some (.delete key)
  | .cacheDeleteAll start => some (.deleteAll start)
  | _ => none

/-- The calls that a dialogue makes are some of a list, in its order. -/
def Calls (x : Dialogue α) (calls : List CacheCall) : Prop :=
  ∀ transcript result, Held x transcript result →
    (transcript.filterMap (·.question.call?)).Sublist calls

section Calls

theorem calls_of_asks {x : Dialogue α} (h : x.Asks fun question => question.call? = none)
    (calls : List CacheCall) : Calls x calls := by
  intro transcript result hheld
  rw [Dialogue.filterMap_of_asks h (fun _ hquestion => hquestion) hheld]
  exact List.nil_sublist calls

theorem calls_query {question : Question} {call : CacheCall} (h : question.call? = some call) :
    Calls (Dialogue.query question) [call] := by
  intro transcript result hheld
  rw [hheld.of_query]
  simp only [List.filterMap_cons, h, List.filterMap_nil, List.Sublist.refl]

theorem Calls.bind {x : Dialogue α} {f : α → Dialogue β} {first rest : List CacheCall}
    (hx : Calls x first) (hf : ∀ a, Calls (f a) rest) : Calls (x >>= f) (first ++ rest) := by
  intro transcript result h
  rcases h.of_bind with ⟨hbroken, -⟩ | ⟨a, front, back, rfl, hfront, hback⟩
  · exact (hx _ _ hbroken).trans (List.sublist_append_left first rest)
  · rw [List.filterMap_append]
    exact (hx _ _ hfront).append (hf a _ _ hback)

theorem Calls.mono {x : Dialogue α} {calls more : List CacheCall} (h : Calls x calls)
    (hmore : calls.Sublist more) : Calls x more :=
  fun transcript result hheld => (h transcript result hheld).trans hmore

theorem calls_asked {question : Question} {call : CacheCall} (h : question.call? = some call)
    (f : question.Answer → α) : Calls (do return f (← Dialogue.query question)) [call] :=
  (calls_query h).bind fun _ => calls_of_asks (asks_pure _) []

theorem calls_write (key text : String) (ttl : Nat) :
    Calls (DecisionCache.write key text ttl) [.set key] := by
  unfold DecisionCache.write
  split
  · exact calls_of_asks (asks_pure _) _
  · exact (calls_query rfl).bind fun _ => calls_of_asks (asks_pure _) []

/-- Loading the candidates reads and writes no key but their own, each once at most. -/
theorem calls_candidates (c : Config) (tenant : Option String) (now : Instant) :
    Calls (Engine.candidates c tenant now)
      [.get (Key.candidates tenant), .set (Key.candidates tenant)] := by
  have hkept : Calls (Engine.keptCandidates c tenant) [.get (Key.candidates tenant)] := by
    rw [keptCandidates_eq]
    split
    · exact calls_asked rfl _
    · exact calls_of_asks (asks_pure _) _
  rw [candidates_eq]
  refine hkept.bind fun kept => ?_
  cases kept with
  | some policies => exact calls_of_asks (asks_pure _) _
  | none =>
      refine Calls.bind (calls_of_asks (asks_queryStore (fun _ => rfl) (fun _ _ => rfl) c tenant
        now) []) fun outcome => ?_
      cases outcome with
      | error e => exact calls_of_asks (asks_pure _) _
      | ok found =>
          by_cases hswitch : c.cacheCandidates = true
          · simp only [hswitch, if_true]
            exact (calls_write _ _ _).bind fun _ => calls_of_asks (asks_pure _) []
          · simp only [hswitch]
            exact calls_of_asks (asks_pure _) _

/-- An evaluation reads the verdict, reads and writes the candidates, and writes the
verdict, in this order and each of it once at most. -/
theorem calls_evaluate (c : Config) (r : Request) :
    Calls (Engine.evaluate c r) [.get (Key.decision r), .get (Key.candidates r.tenant),
      .set (Key.candidates r.tenant), .set (Key.decision r)] := by
  unfold Engine.evaluate
  cases r.defect? with
  | some cause => exact calls_of_asks (asks_pure _) _
  | none =>
      have hread : Calls (DecisionCache.getDecision c r) [.get (Key.decision r)] := by
        rw [getDecision_eq]
        exact calls_asked rfl _
      refine hread.bind fun kept => ?_
      cases kept with
      | some v => exact calls_of_asks (asks_pure _) _
      | none =>
          rw [evaluateAnew_eq]
          refine Calls.bind (calls_of_asks (asks_query rfl) []) fun now => ?_
          refine (calls_candidates c r.tenant now).bind fun outcome => ?_
          cases outcome with
          | error e => exact calls_of_asks (asks_pure _) _
          | ok policies =>
              exact (calls_write _ _ _).bind fun _ =>
                calls_of_asks ((asks_dispatchActions (fun _ _ => rfl) _ r).bind fun _ =>
                  asks_pure _) []

/-- No call of the cache is made twice in an evaluation, so that faults which are
given by operation and key are given call by call. -/
theorem calls_nodup {c : Config} {r : Request} {transcript : List Exchange}
    {result : Option (Except EngineError Verdict)}
    (h : Held (Engine.evaluate c r) transcript result) :
    (transcript.filterMap (·.question.call?)).Nodup := by
  refine (calls_evaluate c r transcript result h).nodup ?_
  have hkeys := Key.decision_ne_candidates r r.tenant
  simp [hkeys, hkeys.symm]

end Calls

/-! ## Answers of the store -/

/-- The error of a query of the store that failed, or that took longer than its
budget. -/
inductive QueryFails (budget : Nat) (answer : Timed (Except StoreError (List Policy))) :
    EngineError → Prop
  | error (cause : StoreError) (h : answer.outcome = .error cause) :
      QueryFails budget answer cause.toEngine
  | late (found : List Policy) (h : answer.outcome = .ok found)
      (hlate : budget < answer.elapsed) :
      QueryFails budget answer (.storeTimeout (answer.elapsed / 1000000) (budget / 1000000))

/-- A query is judged an error where it failed, and where it came late. -/
theorem judge_error_iff {budget : Nat} {answer : Timed (Except StoreError (List Policy))}
    {e : EngineError} : Engine.judge budget answer = .error e ↔ QueryFails budget answer e := by
  obtain ⟨outcome, elapsed⟩ := answer
  cases outcome with
  | error cause =>
      constructor
      · rintro ⟨⟩
        exact .error cause rfl
      · rintro (⟨_, ⟨⟩⟩ | ⟨_, ⟨⟩, _⟩)
        rfl
  | ok found =>
      by_cases hlate : budget < elapsed
      · have hjudge : Engine.judge budget ⟨.ok found, elapsed⟩ =
            .error (.storeTimeout (elapsed / 1000000) (budget / 1000000)) :=
          if_pos hlate
        rw [hjudge]
        constructor
        · rintro ⟨⟩
          exact .late found rfl hlate
        · rintro (⟨_, ⟨⟩⟩ | ⟨_, _, _⟩)
          rfl
      · have hjudge : Engine.judge budget ⟨.ok found, elapsed⟩ = .ok found := if_neg hlate
        rw [hjudge]
        constructor
        · rintro ⟨⟩
        · rintro (⟨_, ⟨⟩⟩ | ⟨_, _, hover⟩)
          exact absurd hover hlate

theorem QueryFails.isRetryable {budget : Nat} {answer : Timed (Except StoreError (List Policy))}
    {e : EngineError} (h : QueryFails budget answer e) : e.isRetryable = true := by
  cases h with
  | error cause => cases cause <;> rfl
  | late => rfl

theorem judge_ok_of_not_fails {budget : Nat} {answer : Timed (Except StoreError (List Policy))}
    (h : ∀ e, ¬ QueryFails budget answer e) : ∃ found, Engine.judge budget answer = .ok found := by
  cases hjudge : Engine.judge budget answer with
  | ok found => exact ⟨found, rfl⟩
  | error e => exact absurd (judge_error_iff.mp hjudge) (h e)

theorem not_fails_of_judge_ok {budget : Nat} {answer : Timed (Except StoreError (List Policy))}
    {found : List Policy} (h : Engine.judge budget answer = .ok found) (e : EngineError) :
    ¬ QueryFails budget answer e := by
  intro hfails
  rw [judge_error_iff.mpr hfails] at h
  cases h

/-! ## What the collaborators answer -/

section Answers

variable {collaborators : Collaborators σ} {s after : σ}

theorem Dialogue.run_answered {question : Question} {answer : question.Answer}
    (h : collaborators question s = (some answer, after)) (f : question.Answer → Dialogue α) :
    (Dialogue.query question >>= f).run collaborators s =
      { (f answer).run collaborators after with
        transcript := ⟨question, some answer⟩ ::
          ((f answer).run collaborators after).transcript } := by
  change Dialogue.run collaborators (.ask question f) s = _
  simp only [run, h]

theorem Dialogue.run_broken {question : Question} (h : collaborators question s = (none, after))
    (f : question.Answer → Dialogue α) :
    (Dialogue.query question >>= f).run collaborators s = ⟨none, [⟨question, none⟩], after⟩ := by
  change Dialogue.run collaborators (.ask question f) s = _
  simp only [run, h]

/-- The store fails when it is asked for the candidates of a tenant: over the query for
no tenant, or over the one for the tenant after that. -/
inductive StoreDown (collaborators : Collaborators σ) (c : Config) (tenant : Option String)
    (now : Instant) (s : σ) : EngineError → Prop
  | global (answer : Timed (Except StoreError (List Policy))) (after : σ) {e : EngineError}
      (hglobal : collaborators (.findGlobal now) s = (some answer, after))
      (hfails : QueryFails c.storeBudget answer e) :
      StoreDown collaborators c tenant now s e
  | own (name : String) (answer answer' : Timed (Except StoreError (List Policy)))
      (after after' : σ) {e : EngineError} (htenant : tenant = some name)
      (hglobal : collaborators (.findGlobal now) s = (some answer, after))
      (hanswer : ∀ e, ¬ QueryFails c.storeBudget answer e)
      (hown : collaborators (.findActive name now) after = (some answer', after'))
      (hfails : QueryFails c.storeBudget answer' e) :
      StoreDown collaborators c tenant now s e

/-- The cache gives no candidates of a tenant: it is not asked, or its answer is of no
use. -/
inductive GivesNoList (collaborators : Collaborators σ) (c : Config) (tenant : Option String)
    (s : σ) : List Exchange → σ → Prop
  | off (hoff : c.cacheCandidates = false) : GivesNoList collaborators c tenant s [] s
  | vain (answer : Timed (Except CacheError (Option String))) (after : σ)
      (hon : c.cacheCandidates = true)
      (hread : collaborators (.cacheGet (Key.candidates tenant)) s = (some answer, after))
      (hnone : listIn? c answer = none) :
      GivesNoList collaborators c tenant s [⟨.cacheGet (Key.candidates tenant), some answer⟩] after

/-- The evaluation of a fit request comes to the store: the cache gives no verdict, and
at the instant of the clock no candidates. -/
inductive ComesToStore (collaborators : Collaborators σ) (c : Config) (r : Request) (s : σ) :
    List Exchange → Instant → σ → Prop
  | intro (read : Timed (Except CacheError (Option String))) (now : Instant) (s₁ s₂ after : σ)
      {lists : List Exchange} (hfit : r.defect? = none)
      (hread : collaborators (.cacheGet (Key.decision r)) s = (some read, s₁))
      (hverdict : verdictIn? c read = none)
      (hnow : collaborators .now s₁ = (some now, s₂))
      (hlists : GivesNoList collaborators c r.tenant s₂ lists after) :
      ComesToStore collaborators c r s
        (⟨.cacheGet (Key.decision r), some read⟩ :: ⟨.now, some now⟩ :: lists) now after

/-- Why an evaluation must fail, said of the collaborators: its request is unfit, or it
comes to the store and the store fails. -/
inductive MustFail (collaborators : Collaborators σ) (c : Config) (r : Request) (s : σ) :
    EngineError → Prop
  | unfit (cause : RequestError) (h : r.defect? = some cause) :
      MustFail collaborators c r s (.invalidRequest cause)
  | store (asked : List Exchange) (now : Instant) (after : σ) {e : EngineError}
      (hcomes : ComesToStore collaborators c r s asked now after)
      (hdown : StoreDown collaborators c r.tenant now after e) : MustFail collaborators c r s e

variable {c : Config} {tenant : Option String} {now : Instant} {r : Request}
  {asked lists : List Exchange} {e : EngineError}

/-! ## Errors come from the store -/

/-- A dialogue does not end with an error, whatever the answers. -/
def Unerring (x : Dialogue (Except EngineError α)) : Prop :=
  ∀ transcript e, ¬ Held x transcript (some (.error e))

theorem unerring_ok (a : α) : Unerring (pure (.ok a)) := by
  intro transcript e h
  cases h.of_pure.2

theorem unerring_bind (x : Dialogue α) {f : α → Dialogue (Except EngineError β)}
    (hf : ∀ a, Unerring (f a)) : Unerring (x >>= f) := by
  intro transcript e h
  obtain ⟨a, front, back, -, -, hback⟩ := h.of_bind_some
  exact hf a back e hback

/-- A dialogue that passes errors on ends with an error of its first part, or with one of
what it goes on with. -/
theorem error_bind_iff {x : Dialogue (Except EngineError α)}
    {f : Except EngineError α → Dialogue (Except EngineError β)}
    (herror : ∀ e, f (.error e) = pure (.error e)) :
    ((x >>= f).run collaborators s).result = some (.error e) ↔
      (x.run collaborators s).result = some (.error e) ∨
      ∃ a, (x.run collaborators s).result = some (.ok a) ∧
        ((f (.ok a)).run collaborators (x.run collaborators s).state).result =
          some (.error e) := by
  rw [Dialogue.run_bind, Course.andThen]
  generalize x.run collaborators s = course
  obtain ⟨result, transcript, after⟩ := course
  cases result with
  | none => simp
  | some outcome =>
      cases outcome with
      | error e' => simp [herror, Dialogue.run_pure]
      | ok a => simp

/-- Where what it goes on with brings up no error, only the first part can. -/
theorem error_iff_of_bind {x : Dialogue (Except EngineError α)}
    {f : Except EngineError α → Dialogue (Except EngineError β)}
    (herror : ∀ e, f (.error e) = pure (.error e)) (hok : ∀ a, Unerring (f (.ok a))) :
    ((x >>= f).run collaborators s).result = some (.error e) ↔
      (x.run collaborators s).result = some (.error e) := by
  rw [error_bind_iff herror, or_iff_left]
  rintro ⟨a, -, h⟩
  have hheld := Dialogue.held_run collaborators (f (.ok a)) (x.run collaborators s).state
  rw [h] at hheld
  exact hok a _ e hheld

/-- A dialogue of one question comes to what is made of the answer, if there is one. -/
theorem result_asked_iff {question : Question} {f : question.Answer → α} {a : α} :
    ((do return f (← Dialogue.query question)).run collaborators s).result = some a ↔
      ∃ answer after, collaborators question s = (some answer, after) ∧ f answer = a := by
  cases hanswer : collaborators question s with
  | mk answer after =>
    cases answer with
    | none => simp [Dialogue.run_broken hanswer]
    | some answer => simp [Dialogue.run_answered hanswer, Dialogue.run_pure]

/-- The query for the policies of a tenant, which come behind those found before. -/
theorem tenantQuery_error_iff {found : List Policy} {name : String} :
    (((do return Engine.judge c.storeBudget (← Dialogue.query (.findActive name now))) >>=
        fun own => return own.map (found ++ ·) :
          Dialogue (Except EngineError (List Policy))).run collaborators s).result =
        some (.error e) ↔
      ∃ answer after, collaborators (.findActive name now) s = (some answer, after) ∧
        QueryFails c.storeBudget answer e := by
  refine (error_iff_of_bind ?_ ?_).trans (result_asked_iff.trans ?_)
  · exact fun _ => rfl
  · exact fun _ => unerring_ok _
  · exact exists_congr fun answer => exists_congr fun after => and_congr_right' judge_error_iff

/-- Asking the store comes to an error exactly where the store fails at the query for no
tenant, or gives that in order and fails at the one for the tenant. -/
theorem queryStore_error_iff :
    ((Engine.queryStore c tenant now).run collaborators s).result = some (.error e) ↔
      StoreDown collaborators c tenant now s e := by
  rw [queryStore_eq]
  refine (error_bind_iff fun _ => by rfl).trans ⟨?_, ?_⟩
  · rintro (hglobal | ⟨found, hglobal, hown⟩)
    · obtain ⟨answer, after, hglobal, hjudge⟩ := result_asked_iff.mp hglobal
      exact .global answer after hglobal (judge_error_iff.mp hjudge)
    · obtain ⟨answer, after, hglobal, hjudge⟩ := result_asked_iff.mp hglobal
      rw [Dialogue.run_answered hglobal] at hown
      cases tenant with
      | none => cases hown
      | some name =>
          obtain ⟨answer', after', hown, hfails⟩ := tenantQuery_error_iff.mp hown
          exact .own name answer answer' after after' rfl hglobal (not_fails_of_judge_ok hjudge)
            hown hfails
  · rintro (⟨answer, after, hglobal, hfails⟩ |
      ⟨name, answer, answer', after, after', rfl, hglobal, hinOrder, hown, hfails⟩)
    · exact .inl (result_asked_iff.mpr ⟨answer, after, hglobal, judge_error_iff.mpr hfails⟩)
    · obtain ⟨found, hjudge⟩ := judge_ok_of_not_fails hinOrder
      refine .inr ⟨found, result_asked_iff.mpr ⟨answer, after, hglobal, hjudge⟩, ?_⟩
      rw [Dialogue.run_answered hglobal]
      exact tenantQuery_error_iff.mpr ⟨answer', after', hown, hfails⟩

def Engine.resume (c : Config) (r : Request) (now : Instant) :
    Dialogue (Except EngineError Verdict) :=
  Engine.newCandidates c r.tenant now >>= fun
    | .error e => return .error e
    | .ok policies => Engine.conclude c r (rule c r policies now)

theorem unerring_conclude (c : Config) (r : Request) (ruling : Ruling) :
    Unerring (Engine.conclude c r ruling) :=
  unerring_bind _ fun _ => unerring_bind _ fun _ => unerring_ok _

/-- From the store on nothing can fail but the store. -/
theorem resume_error_iff :
    ((Engine.resume c r now).run collaborators s).result = some (.error e) ↔
      StoreDown collaborators c r.tenant now s e := by
  refine Iff.trans (error_iff_of_bind (fun _ => rfl) ?_)
    (Iff.trans (error_iff_of_bind (fun _ => rfl) ?_) queryStore_error_iff)
  · exact fun policies => unerring_conclude c r _
  · intro found
    by_cases hswitch : c.cacheCandidates = true
    · simp only [hswitch, if_true]
      exact unerring_bind _ fun _ => unerring_ok _
    · simp only [hswitch]
      exact unerring_ok _

/-! ## The way to the store -/

theorem getDecision_run {read : Timed (Except CacheError (Option String))}
    (h : collaborators (.cacheGet (Key.decision r)) s = (some read, after)) :
    (DecisionCache.getDecision c r).run collaborators s =
      ⟨some (verdictIn? c read), [⟨.cacheGet (Key.decision r), some read⟩], after⟩ := by
  rw [getDecision_eq, Dialogue.run_answered h, Dialogue.run_pure]

/-- Where the cache gives no candidates it is asked for them once at most. -/
theorem keptCandidates_run (h : GivesNoList collaborators c tenant s lists after) :
    (Engine.keptCandidates c tenant).run collaborators s = ⟨some none, lists, after⟩ := by
  rw [keptCandidates_eq]
  cases h with
  | off hoff =>
      simp only [hoff]
      rfl
  | vain answer after hon hread hnone =>
      simp only [hon, if_true]
      rw [Dialogue.run_answered hread, Dialogue.run_pure, hnone]

/-- Where the cache gives neither verdict nor candidates, the store is asked next. -/
theorem evaluate_resumes (h : ComesToStore collaborators c r s asked now after) :
    (Engine.evaluate c r).run collaborators s =
      { (Engine.resume c r now).run collaborators after with
        transcript := asked ++ ((Engine.resume c r now).run collaborators after).transcript } := by
  obtain ⟨read, now, s₁, s₂, after, hfit, hread, hverdict, hnow, hlists⟩ := h
  simp only [Engine.evaluate, hfit]
  rw [Dialogue.run_bind, getDecision_run hread, hverdict]
  simp only [Course.andThen, evaluateAnew_eq, Dialogue.run_answered hnow, candidates_eq,
    Dialogue.run_bind, keptCandidates_run hlists, Option.elim_none, Engine.resume]
  cases ((Engine.newCandidates c r.tenant now).run collaborators after).result with
  | none => rfl
  | some outcome =>
      exact congrArg (Course.mk _ · _) (List.append_assoc (_ :: _ :: _) _ _)

/-- The candidates of the cache are of use, or the engine goes on without any. -/
theorem keptCandidates_cases (collaborators : Collaborators σ) (c : Config)
    (tenant : Option String) (s : σ) :
    (∃ lists after, GivesNoList collaborators c tenant s lists after) ∨
      ((Engine.keptCandidates c tenant).run collaborators s).result ≠ some none := by
  rw [keptCandidates_eq]
  cases hswitch : c.cacheCandidates with
  | false => exact .inl ⟨[], s, .off hswitch⟩
  | true =>
      simp only [if_true]
      cases hread : collaborators (.cacheGet (Key.candidates tenant)) s with
      | mk answer after =>
        cases answer with
        | none =>
            rw [Dialogue.run_broken hread]
            exact .inr fun h => by cases h
        | some answer =>
            rw [Dialogue.run_answered hread, Dialogue.run_pure]
            cases hlist : listIn? c answer with
            | none => exact .inl ⟨_, after, .vain answer after hswitch hread hlist⟩
            | some policies => exact .inr fun h => by cases h

/-- Candidates that are not the store's bring up no error. -/
theorem candidates_unerring
    (h : ((Engine.keptCandidates c tenant).run collaborators s).result ≠ some none) :
    ((Engine.candidates c tenant now).run collaborators s).result ≠ some (.error e) := by
  rw [candidates_eq, Dialogue.run_bind, Course.andThen]
  generalize (Engine.keptCandidates c tenant).run collaborators s = course at h
  obtain ⟨result, transcript, after⟩ := course
  cases result with
  | none =>
      intro herror
      cases herror
  | some kept =>
      cases kept with
      | none => exact absurd rfl h
      | some policies =>
          intro herror
          cases herror

/-- An evaluation of a fit request that fails has come to the store. -/
theorem comesToStore_of_error (hfit : r.defect? = none)
    (h : ((Engine.evaluate c r).run collaborators s).result = some (.error e)) :
    ∃ asked now after, ComesToStore collaborators c r s asked now after := by
  simp only [Engine.evaluate, hfit] at h
  cases hread : collaborators (.cacheGet (Key.decision r)) s with
  | mk read s₁ =>
    cases read with
    | none =>
        rw [getDecision_eq, Dialogue.run_bind, Dialogue.run_broken hread] at h
        cases h
    | some read =>
        rw [Dialogue.run_bind, getDecision_run hread] at h
        cases hverdict : verdictIn? c read with
        | some v =>
            rw [hverdict] at h
            cases h
        | none =>
            simp only [hverdict, Course.andThen, evaluateAnew_eq] at h
            cases hnow : collaborators .now s₁ with
            | mk clock s₂ =>
              cases clock with
              | none =>
                  rw [Dialogue.run_broken hnow] at h
                  cases h
              | some now =>
                  rw [Dialogue.run_answered hnow] at h
                  have hloading : ((Engine.candidates c r.tenant now).run collaborators s₂).result =
                      some (.error e) := by
                    refine (error_iff_of_bind ?_ ?_).mp h
                    · exact fun _ => rfl
                    · exact fun policies => unerring_conclude c r _
                  rcases keptCandidates_cases collaborators c r.tenant s₂ with
                    ⟨lists, after, hlists⟩ | hkept
                  · exact ⟨_, now, after, .intro read now s₁ s₂ after hfit hread hverdict hnow hlists⟩
                  · exact absurd hloading (candidates_unerring hkept)

/-! ## The questions to the store -/

/-- What a dialogue has asked stays asked, whatever it goes on with. -/
theorem Dialogue.transcript_bind (collaborators : Collaborators σ) (x : Dialogue α)
    (f : α → Dialogue β) (s : σ) :
    ∃ rest, ((x >>= f).run collaborators s).transcript =
      (x.run collaborators s).transcript ++ rest := by
  rw [run_bind, Course.andThen]
  split
  · exact ⟨[], (List.append_nil _).symm⟩
  · exact ⟨_, rfl⟩

/-- The store is asked for the policies of no tenant, and if it has answered that in
order, for those of the tenant. -/
theorem queryStore_transcript (collaborators : Collaborators σ) (c : Config)
    (tenant : Option String) (now : Instant) (s : σ) :
    ∃ rest, ((Engine.queryStore c tenant now).run collaborators s).transcript =
        ⟨.findGlobal now, (collaborators (.findGlobal now) s).1⟩ :: rest ∧
      ∀ name answer after, tenant = some name →
        collaborators (.findGlobal now) s = (some answer, after) →
        (∀ e, ¬ QueryFails c.storeBudget answer e) →
        rest = [⟨.findActive name now, (collaborators (.findActive name now) after).1⟩] := by
  unfold Engine.queryStore
  cases hglobal : collaborators (.findGlobal now) s with
  | mk answer after =>
    cases answer with
    | none =>
        rw [Dialogue.run_broken hglobal]
        exact ⟨[], rfl, fun _ _ _ _ hanswered => by cases hanswered⟩
    | some answer =>
        rw [Dialogue.run_answered hglobal]
        refine ⟨_, rfl, ?_⟩
        rintro name _ _ rfl ⟨⟩ hinOrder
        obtain ⟨found, hjudge⟩ := judge_ok_of_not_fails hinOrder
        simp only [hjudge]
        cases hown : collaborators (.findActive name now) after with
        | mk answer' after' =>
          cases answer' with
          | none => rw [Dialogue.run_broken hown]
          | some answer' => rw [Dialogue.run_answered hown, Dialogue.run_pure]

/-- Where the cache gives neither verdict nor candidates, the next question is that for
the policies of no tenant, and the one after it that for those of the tenant. -/
theorem evaluate_asks_store (h : ComesToStore collaborators c r s asked now after) :
    ∃ rest, ((Engine.evaluate c r).run collaborators s).transcript =
        asked ++ ⟨.findGlobal now, (collaborators (.findGlobal now) after).1⟩ :: rest ∧
      ∀ name answer after', r.tenant = some name →
        collaborators (.findGlobal now) after = (some answer, after') →
        (∀ e, ¬ QueryFails c.storeBudget answer e) →
        ∃ later, rest =
          ⟨.findActive name now, (collaborators (.findActive name now) after').1⟩ :: later := by
  obtain ⟨queries, hqueries, hown⟩ := queryStore_transcript collaborators c r.tenant now after
  obtain ⟨writes, hloaded⟩ : ∃ writes,
      ((Engine.newCandidates c r.tenant now).run collaborators after).transcript =
        ((Engine.queryStore c r.tenant now).run collaborators after).transcript ++ writes :=
    Dialogue.transcript_bind collaborators _ _ after
  obtain ⟨conclusion, hresumed⟩ : ∃ conclusion,
      ((Engine.resume c r now).run collaborators after).transcript =
        ((Engine.newCandidates c r.tenant now).run collaborators after).transcript ++ conclusion :=
    Dialogue.transcript_bind collaborators _ _ after
  refine ⟨queries ++ writes ++ conclusion, ?_, ?_⟩
  · rw [evaluate_resumes h, hresumed, hloaded, hqueries]
    rfl
  · intro name answer after' htenant hglobal hinOrder
    rw [hown name answer after' htenant hglobal hinOrder]
    exact ⟨writes ++ conclusion, rfl⟩

/-- An evaluation fails just where it must. -/
theorem evaluate_error_iff :
    ((Engine.evaluate c r).run collaborators s).result = some (.error e) ↔
      MustFail collaborators c r s e := by
  constructor
  · intro h
    cases hdefect : r.defect? with
    | some cause =>
        rw [Engine.evaluate, hdefect] at h
        cases h
        exact .unfit cause hdefect
    | none =>
        obtain ⟨asked, now, after, hcomes⟩ := comesToStore_of_error hdefect h
        rw [evaluate_resumes hcomes] at h
        exact .store asked now after hcomes (resume_error_iff.mp h)
  · rintro (⟨cause, hdefect⟩ | ⟨asked, now, after, hcomes, hdown⟩)
    · rw [Engine.evaluate, hdefect]
      rfl
    · rw [evaluate_resumes hcomes]
      exact resume_error_iff.mpr hdown

end Answers

end DecisionPoint
