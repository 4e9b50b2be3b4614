import DecisionPoint.Proofs.Asking

/-!
How an evaluation fails, whatever the collaborators answer. It fails where the
request is unfit, before anything is asked, and where the cache gave neither a
verdict nor candidates and a query of the store failed, before anything is kept
or dispatched. What the cache holds or how it fails is no cause of an error: an
answer of no use counts as no find. Nor are the documents of policies: one that
cannot be read counts as one that is not there.
-/

namespace DecisionPoint

open Time (Instant)
open Dialogue (Held)

/-! ## The course of a failure -/

section Course

variable {c : Config} {tenant : Option String} {now : Instant} {r : Request}
  {transcript : List Exchange} {e : EngineError}

/-- The queries of the store where one failed: no other is made after it. -/
inductive FailedQueries (c : Config) (tenant : Option String) (now : Instant) :
    List Exchange → EngineError → Prop
  | global (answer : Timed (Except StoreError (List Policy))) {e : EngineError}
      (hfails : QueryFails c.storeBudget answer e) :
      FailedQueries c tenant now [⟨.findGlobal now, some answer⟩] e
  | own (name : String) (answer answer' : Timed (Except StoreError (List Policy)))
      {e : EngineError} (htenant : tenant = some name)
      (hanswer : ∀ e, ¬ QueryFails c.storeBudget answer e)
      (hfails : QueryFails c.storeBudget answer' e) :
      FailedQueries c tenant now
        [⟨.findGlobal now, some answer⟩, ⟨.findActive name now, some answer'⟩] e

/-- What an evaluation that fails has asked, and with what error it fails. -/
inductive Failure (c : Config) (r : Request) : List Exchange → EngineError → Prop
  | unfit (cause : RequestError) (h : r.defect? = some cause) :
      Failure c r [] (.invalidRequest cause)
  | store (hfit : r.defect? = none) (read : Timed (Except CacheError (Option String)))
      (hread : verdictIn? c read = none) (now : Instant) {lists queries : List Exchange}
      {e : EngineError}
      (hlists : lists = [] ∨ ∃ answer,
        lists = [⟨.cacheGet (Key.candidates r.tenant), some answer⟩] ∧ listIn? c answer = none)
      (hqueries : FailedQueries c r.tenant now queries e) :
      Failure c r (⟨.cacheGet (Key.decision r), some read⟩ :: ⟨.now, some now⟩ ::
        (lists ++ queries)) e

/-- Asking the store ends in an error only where a query failed, and stops there. -/
theorem failed_queryStore
    (h : Held (Engine.queryStore c tenant now) transcript (some (.error e))) :
    FailedQueries c tenant now transcript e := by
  obtain ⟨answer, front, back, rfl, hglobal, hrest⟩ := h.of_bind_some
  rw [hglobal.of_query]
  cases hjudge : Engine.judge c.storeBudget answer with
  | error e' =>
      rw [hjudge] at hrest
      obtain ⟨rfl, hsame⟩ := hrest.of_pure
      cases hsame
      exact .global answer (judge_error_iff.mp hjudge)
  | ok found =>
      rw [hjudge] at hrest
      cases tenant with
      | none => cases hrest.of_pure.2
      | some name =>
          obtain ⟨answer', front', back', rfl, hown, hdone⟩ := hrest.of_bind_some
          obtain ⟨rfl, hresult⟩ := hdone.of_pure
          rw [hown.of_query]
          refine .own name answer answer' rfl ?_ ?_
          · intro e' hfails
            rw [judge_error_iff.mpr hfails] at hjudge
            cases hjudge
          · apply judge_error_iff.mp
            cases hjudge' : Engine.judge c.storeBudget answer' with
            | error e' =>
                rw [hjudge'] at hresult
                cases hresult
                rfl
            | ok found' =>
                rw [hjudge'] at hresult
                cases hresult

/-- Loading candidates ends in an error only where the cache gave none and the store failed.
-/
theorem failed_candidates
    (h : Held (Engine.candidates c tenant now) transcript (some (.error e))) :
    ∃ lists queries, transcript = lists ++ queries ∧
      (lists = [] ∨ ∃ answer,
        lists = [⟨.cacheGet (Key.candidates tenant), some answer⟩] ∧ listIn? c answer = none) ∧
      FailedQueries c tenant now queries e := by
  obtain ⟨kept, front, back, rfl, hkept, hrest⟩ := h.of_bind_some
  cases kept with
  | some policies => cases hrest.of_pure.2
  | none =>
      obtain ⟨outcome, queries, writes, rfl, hquery, hdone⟩ := hrest.of_bind_some
      have hlists : front = [] ∨ ∃ answer,
          front = [⟨.cacheGet (Key.candidates tenant), some answer⟩] ∧
            listIn? c answer = none := by
        rw [keptCandidates_eq] at hkept
        split at hkept
        · rcases hkept.of_asked with ⟨-, hnone⟩ | ⟨answer, rfl, hlist⟩
          · cases hnone
          · exact .inr ⟨answer, rfl, (Option.some.inj hlist).symm⟩
        · exact .inl hkept.of_pure.1
      cases outcome with
      | error e' =>
          obtain ⟨rfl, hsame⟩ := hdone.of_pure
          cases hsame
          rw [List.append_nil]
          exact ⟨front, queries, rfl, hlists, failed_queryStore hquery⟩
      | ok found =>
          -- Once the store has answered, no error is left to end with.
          exfalso
          by_cases hswitch : c.cacheCandidates = true
          · simp only [hswitch, if_true] at hdone
            obtain ⟨_, _, _, -, -, hok⟩ := hdone.of_bind_some
            cases hok.of_pure.2
          · simp only [hswitch] at hdone
            cases hdone.of_pure.2

/-- An evaluation that fails takes one of two courses: it refuses the request,
or it asks the cache in vain and then the store. -/
theorem failed_evaluate (h : Held (Engine.evaluate c r) transcript (some (.error e))) :
    Failure c r transcript e := by
  unfold Engine.evaluate at h
  cases hdefect : r.defect? with
  | some cause =>
      rw [hdefect] at h
      obtain ⟨rfl, hsame⟩ := h.of_pure
      cases hsame
      exact .unfit cause hdefect
  | none =>
      rw [hdefect] at h
      obtain ⟨kept, front, back, rfl, hkept, hrest⟩ := h.of_bind_some
      cases kept with
      | some v => cases hrest.of_pure.2
      | none =>
          rw [getDecision_eq] at hkept
          rcases hkept.of_asked with ⟨-, hnone⟩ | ⟨read, rfl, hread⟩
          · cases hnone
          · obtain ⟨now, clock, rest, rfl, hnow, hanew⟩ := hrest.of_bind_some
            rw [hnow.of_query]
            obtain ⟨outcome, loading, conclusion, rfl, hloading, hdone⟩ := hanew.of_bind_some
            cases outcome with
            | ok policies =>
                exfalso
                obtain ⟨_, _, _, -, -, hdispatch⟩ := hdone.of_bind_some
                obtain ⟨_, _, _, -, -, hok⟩ := hdispatch.of_bind_some
                cases hok.of_pure.2
            | error e' =>
                obtain ⟨rfl, hsame⟩ := hdone.of_pure
                cases hsame
                obtain ⟨lists, queries, rfl, hlists, hqueries⟩ := failed_candidates hloading
                rw [List.append_nil]
                change Failure c r (_ :: _ :: (lists ++ queries)) e
                exact .store hdefect read (Option.some.inj hread).symm now hlists hqueries

end Course

/-! ## Every failed query is reported

For the converse the errors of the store are read off a transcript as a list: a
dialogue that stops at the first error holds that one and no other. -/

def errorIn? : Except EngineError α → Option EngineError
  | .error e => some e
  | .ok _ => none

def Exchange.failure? (budget : Nat) : Exchange → Option EngineError
  | ⟨.findGlobal _, some answer⟩ => errorIn? (Engine.judge budget answer)
  | ⟨.findActive _ _, some answer⟩ => errorIn? (Engine.judge budget answer)
  | _ => none

def Unfailing (budget : Nat) (x : Dialogue α) : Prop :=
  ∀ transcript result, Held x transcript result →
    transcript.filterMap (Exchange.failure? budget) = []

/-- A dialogue ends with the first error of the store. -/
def Reports (budget : Nat) (x : Dialogue (Except EngineError α)) : Prop :=
  ∀ transcript result, Held x transcript result →
    transcript.filterMap (Exchange.failure? budget) = (result.bind errorIn?).toList

section Reports

variable {budget : Nat}

/-- A dialogue that leaves the store alone meets no error of it. -/
theorem unfailing_of_asks {x : Dialogue α}
    (h : x.Asks fun question =>
      (∀ now, question ≠ .findGlobal now) ∧ ∀ tenant now, question ≠ .findActive tenant now) :
    Unfailing budget x := by
  intro transcript result hheld
  apply Dialogue.filterMap_of_asks h ?_ hheld
  rintro ⟨question, answer⟩ ⟨hglobal, hown⟩
  cases question with
  | findGlobal now => exact absurd rfl (hglobal now)
  | findActive tenant now => exact absurd rfl (hown tenant now)
  | _ => rfl

theorem reports_ok (a : α) : Reports budget (pure (.ok a)) := by
  intro transcript result h
  obtain ⟨rfl, rfl⟩ := h.of_pure
  rfl

theorem Unfailing.reports {x : Dialogue α} {f : α → Dialogue (Except EngineError β)}
    (hx : Unfailing budget x) (hf : ∀ a, Reports budget (f a)) : Reports budget (x >>= f) := by
  intro transcript result h
  rcases h.of_bind with ⟨hbroken, rfl⟩ | ⟨a, front, back, rfl, hfront, hback⟩
  · exact hx _ _ hbroken
  · rw [List.filterMap_append, hx _ _ hfront, hf a _ _ hback]
    rfl

/-- A dialogue that stops at the error of its first part reports it. -/
theorem Reports.bind {x : Dialogue (Except EngineError α)}
    {f : Except EngineError α → Dialogue (Except EngineError β)} (hx : Reports budget x)
    (herror : ∀ e, f (.error e) = pure (.error e)) (hok : ∀ a, Reports budget (f (.ok a))) :
    Reports budget (x >>= f) := by
  intro transcript result h
  rcases h.of_bind with ⟨hbroken, rfl⟩ | ⟨outcome, front, back, rfl, hfront, hback⟩
  · exact hx _ _ hbroken
  · rw [List.filterMap_append, hx _ _ hfront]
    cases outcome with
    | error e =>
        rw [herror] at hback
        obtain ⟨rfl, rfl⟩ := hback.of_pure
        rfl
    | ok a =>
        rw [hok a _ _ hback]
        rfl

theorem reports_judged {question : Question}
    {judgement : question.Answer → Except EngineError (List Policy)}
    (hbroken : Exchange.failure? budget ⟨question, none⟩ = none)
    (hanswer : ∀ answer, Exchange.failure? budget ⟨question, some answer⟩ =
      errorIn? (judgement answer)) :
    Reports budget (do return judgement (← Dialogue.query question)) := by
  intro transcript result h
  rcases h.of_asked with ⟨rfl, rfl⟩ | ⟨answer, rfl, rfl⟩
  · rw [List.filterMap_cons, hbroken]
    rfl
  · rw [List.filterMap_cons, hanswer]
    cases hjudged : errorIn? (judgement answer) <;> simp [hjudged]

end Reports

/-- Asking the store reports the first query that failed. -/
theorem reports_queryStore (c : Config) (tenant : Option String) (now : Instant) :
    Reports c.storeBudget (Engine.queryStore c tenant now) := by
  rw [queryStore_eq]
  refine Reports.bind (reports_judged rfl fun _ => rfl) (fun _ => rfl) ?_
  intro found
  cases tenant with
  | none => exact reports_ok found
  | some name =>
      refine Reports.bind (reports_judged rfl fun _ => rfl) (fun _ => rfl) ?_
      intro own
      exact reports_ok (found ++ own)

theorem reports_candidates (c : Config) (tenant : Option String) (now : Instant) :
    Reports c.storeBudget (Engine.candidates c tenant now) := by
  apply (unfailing_of_asks (asks_keptCandidates (by simp) c)).reports
  intro kept
  cases kept with
  | some policies => exact reports_ok policies
  | none =>
      refine Reports.bind (reports_queryStore c tenant now) (fun _ => rfl) ?_
      intro found
      by_cases hswitch : c.cacheCandidates = true
      · simp only [hswitch, if_true]
        exact (unfailing_of_asks (asks_write (by simp))).reports fun _ => reports_ok _
      · simp only [hswitch]
        exact reports_ok _

/-- Where a query of the store fails over a fit request, the evaluation fails
with its error. -/
theorem reports_evaluate (c : Config) {r : Request} (hfit : r.defect? = none) :
    Reports c.storeBudget (Engine.evaluate c r) := by
  simp only [Engine.evaluate, hfit]
  apply (unfailing_of_asks (asks_getDecision (by simp) c)).reports
  intro kept
  cases kept with
  | some v => exact reports_ok v
  | none =>
      apply (unfailing_of_asks (Dialogue.asks_query (by simp))).reports
      intro now
      refine Reports.bind (reports_candidates c r.tenant now) (fun _ => rfl) ?_
      intro policies
      apply (unfailing_of_asks (asks_write (by simp))).reports
      intro _
      exact (unfailing_of_asks (asks_dispatchActions (by simp) _ r)).reports fun _ => reports_ok _

/-! ## When an evaluation fails -/

/-- A query of the store for the candidates of a tenant failed. -/
inductive StoreFails (c : Config) (tenant : Option String) (transcript : List Exchange)
    (e : EngineError) : Prop
  | global (now : Instant) (answer : Timed (Except StoreError (List Policy)))
      (hasked : ⟨.findGlobal now, some answer⟩ ∈ transcript)
      (hfails : QueryFails c.storeBudget answer e)
  | own (name : String) (now : Instant) (answer : Timed (Except StoreError (List Policy)))
      (htenant : tenant = some name) (hasked : ⟨.findActive name now, some answer⟩ ∈ transcript)
      (hfails : QueryFails c.storeBudget answer e)

/-- Why an evaluation fails: the request is unfit, or the cache gave neither a
verdict nor candidates and a query of the store failed. -/
inductive Fails (c : Config) (r : Request) (transcript : List Exchange) : EngineError → Prop
  | unfit (cause : RequestError) (h : r.defect? = some cause) :
      Fails c r transcript (.invalidRequest cause)
  | store {e : EngineError} (hfit : r.defect? = none)
      (hverdict : ∀ answer, ⟨.cacheGet (Key.decision r), some answer⟩ ∈ transcript →
        verdictIn? c answer = none)
      (hlist : ∀ answer, ⟨.cacheGet (Key.candidates r.tenant), some answer⟩ ∈ transcript →
        listIn? c answer = none)
      (hstore : StoreFails c r.tenant transcript e) : Fails c r transcript e

def Question.isInquiry : Question → Bool
  | .cacheGet _ => true
  | .findGlobal _ => true
  | .findActive _ _ => true
  | .now => true
  | _ => false

section Failure

variable {c : Config} {tenant : Option String} {now : Instant} {r : Request}
  {transcript : List Exchange} {e : EngineError}

theorem Exchange.cacheGet_inj {key : String}
    {answer read : Timed (Except CacheError (Option String))}
    (h : (⟨.cacheGet key, some answer⟩ : Exchange) = ⟨.cacheGet key, some read⟩) :
    answer = read := by
  cases h
  rfl

theorem Exchange.findGlobal_inj {now now' : Instant}
    {answer found : Timed (Except StoreError (List Policy))}
    (h : (⟨.findGlobal now, some answer⟩ : Exchange) = ⟨.findGlobal now', some found⟩) :
    answer = found := by
  cases h
  rfl

theorem FailedQueries.storeFails (h : FailedQueries c tenant now transcript e) :
    StoreFails c tenant transcript e := by
  cases h with
  | global answer hfails => exact .global now answer List.mem_cons_self hfails
  | own name answer answer' htenant hanswer hfails =>
      exact .own name now answer' htenant (List.mem_cons_of_mem _ List.mem_cons_self) hfails

theorem FailedQueries.isInquiry (h : FailedQueries c tenant now transcript e) :
    ∀ x ∈ transcript, x.question.isInquiry = true ∧ ∀ key, x.question ≠ .cacheGet key := by
  cases h <;> simp [Question.isInquiry]

theorem FailedQueries.isRetryable (h : FailedQueries c tenant now transcript e) :
    e.isRetryable = true := by
  cases h with
  | global answer hfails => exact hfails.isRetryable
  | own name answer answer' htenant hanswer hfails => exact hfails.isRetryable

theorem StoreFails.mono {part : List Exchange} (h : StoreFails c tenant part e)
    (hpart : ∀ x ∈ part, x ∈ transcript) : StoreFails c tenant transcript e := by
  cases h with
  | global now answer hasked hfails => exact .global now answer (hpart _ hasked) hfails
  | own name now answer htenant hasked hfails =>
      exact .own name now answer htenant (hpart _ hasked) hfails

/-- An evaluation that fails has read the cache in vain, has looked at the clock
and has asked the store. -/
theorem Failure.exchange_cases (h : Failure c r transcript e) {x : Exchange}
    (hx : x ∈ transcript) :
    (∃ answer, x = ⟨.cacheGet (Key.decision r), some answer⟩ ∧ verdictIn? c answer = none) ∨
      (∃ answer, x = ⟨.cacheGet (Key.candidates r.tenant), some answer⟩ ∧
        listIn? c answer = none) ∨
      x.question.isInquiry = true ∧ ∀ key, x.question ≠ .cacheGet key := by
  cases h with
  | unfit cause hdefect => cases hx
  | @store hfit read hread now lists queries e hlists hqueries =>
      rcases List.mem_cons.mp hx with rfl | hrest
      · exact .inl ⟨read, rfl, hread⟩
      · rcases List.mem_cons.mp hrest with rfl | hrest
        · exact .inr (.inr ⟨rfl, fun key heq => by cases heq⟩)
        · rcases List.mem_append.mp hrest with hlist | hquery
          · rcases hlists with rfl | ⟨answer, rfl, hnone⟩
            · cases hlist
            · exact .inr (.inl ⟨answer, List.mem_singleton.mp hlist, hnone⟩)
          · exact .inr (.inr (hqueries.isInquiry x hquery))

theorem Failure.verdict_none (h : Failure c r transcript e)
    {answer : Timed (Except CacheError (Option String))}
    (hasked : ⟨.cacheGet (Key.decision r), some answer⟩ ∈ transcript) :
    verdictIn? c answer = none := by
  rcases h.exchange_cases hasked with ⟨read, hread, hnone⟩ | ⟨list, hlist, -⟩ | ⟨-, hother⟩
  · rw [Exchange.cacheGet_inj hread]
    exact hnone
  · have hquestion := congrArg Exchange.question hlist
    exact absurd (Question.cacheGet.inj hquestion) (Key.decision_ne_candidates r r.tenant)
  · exact absurd rfl (hother _)

theorem Failure.list_none (h : Failure c r transcript e)
    {answer : Timed (Except CacheError (Option String))}
    (hasked : ⟨.cacheGet (Key.candidates r.tenant), some answer⟩ ∈ transcript) :
    listIn? c answer = none := by
  rcases h.exchange_cases hasked with ⟨read, hread, -⟩ | ⟨list, hlist, hnone⟩ | ⟨-, hother⟩
  · have hquestion := congrArg Exchange.question hread
    exact absurd (Question.cacheGet.inj hquestion).symm (Key.decision_ne_candidates r r.tenant)
  · rw [Exchange.cacheGet_inj hlist]
    exact hnone
  · exact absurd rfl (hother _)

theorem Failure.fails (h : Failure c r transcript e) : Fails c r transcript e := by
  cases h with
  | unfit cause hdefect => exact .unfit cause hdefect
  | @store hfit read hread now lists queries e hlists hqueries =>
      have hfailure := Failure.store hfit read hread now hlists hqueries
      refine .store hfit (fun _ => hfailure.verdict_none) (fun _ => hfailure.list_none)
        (hqueries.storeFails.mono ?_)
      intro x hx
      exact List.mem_cons_of_mem _ (List.mem_cons_of_mem _ (List.mem_append_right _ hx))

/-- An evaluation that fails has asked nothing that changes anything. -/
theorem Failure.isInquiry (h : Failure c r transcript e) :
    ∀ x ∈ transcript, x.question.isInquiry = true := by
  intro x hx
  rcases h.exchange_cases hx with ⟨answer, rfl, -⟩ | ⟨answer, rfl, -⟩ | ⟨hinquiry, -⟩
  · rfl
  · rfl
  · exact hinquiry

/-- What fails for a fit request may be tried again. -/
theorem Failure.isRetryable (h : Failure c r transcript e) (hfit : r.defect? = none) :
    e.isRetryable = true := by
  cases h with
  | unfit cause hdefect =>
      rw [hfit] at hdefect
      cases hdefect
  | store _ _ _ _ _ hqueries => exact hqueries.isRetryable

/-- After a query for the policies of no tenant failed, no tenant is asked
for. -/
theorem FailedQueries.stops (h : FailedQueries c tenant now transcript e) {now' : Instant}
    {answer : Timed (Except StoreError (List Policy))} {e' : EngineError}
    (hasked : ⟨.findGlobal now', some answer⟩ ∈ transcript)
    (hfails : QueryFails c.storeBudget answer e') :
    ∀ x ∈ transcript, ∀ name now, x.question ≠ .findActive name now := by
  cases h with
  | global _ _ => simp
  | own name global own htenant hanswer _ =>
      rcases List.mem_cons.mp hasked with hsame | hother
      · rw [Exchange.findGlobal_inj hsame] at hfails
        exact absurd hfails (hanswer e')
      · cases List.mem_singleton.mp hother

/-- After a failed query for no tenant, none is made for the tenant. -/
theorem Failure.stops (h : Failure c r transcript e)
    {answer : Timed (Except StoreError (List Policy))} {e' : EngineError}
    (hasked : ⟨.findGlobal now, some answer⟩ ∈ transcript)
    (hfails : QueryFails c.storeBudget answer e') :
    ∀ x ∈ transcript, ∀ name now, x.question ≠ .findActive name now := by
  cases h with
  | unfit cause hdefect => cases hasked
  | @store hfit read hread now' lists queries e hlists hqueries =>
      rcases hlists with rfl | ⟨list, rfl, -⟩
      · have hquery : ⟨.findGlobal now, some answer⟩ ∈ queries := by simpa using hasked
        simpa using hqueries.stops hquery hfails
      · have hquery : ⟨.findGlobal now, some answer⟩ ∈ queries := by simpa using hasked
        simpa using hqueries.stops hquery hfails

theorem StoreFails.mem_failures (h : StoreFails c tenant transcript e) :
    e ∈ transcript.filterMap (Exchange.failure? c.storeBudget) := by
  cases h with
  | global now answer hasked hfails =>
      refine List.mem_filterMap.mpr ⟨_, hasked, ?_⟩
      change errorIn? (Engine.judge c.storeBudget answer) = some e
      rw [judge_error_iff.mpr hfails]
      rfl
  | own name now answer htenant hasked hfails =>
      refine List.mem_filterMap.mpr ⟨_, hasked, ?_⟩
      change errorIn? (Engine.judge c.storeBudget answer) = some e
      rw [judge_error_iff.mpr hfails]
      rfl

theorem evaluate_unfit {collaborators : Collaborators σ} {s : σ} {cause : RequestError}
    (h : r.defect? = some cause) :
    (Engine.evaluate c r).run collaborators s = ⟨some (.error (.invalidRequest cause)), [], s⟩ := by
  rw [Engine.evaluate, h]
  rfl

/-- Where a query of the store failed, the evaluation fails with its error. -/
theorem failed_of_storeFails {collaborators : Collaborators σ} {s : σ} (hfit : r.defect? = none)
    (h : StoreFails c tenant ((Engine.evaluate c r).run collaborators s).transcript e) :
    ((Engine.evaluate c r).run collaborators s).result = some (.error e) := by
  have hreports := reports_evaluate c hfit _ _
    (Dialogue.held_run collaborators (Engine.evaluate c r) s)
  have hfailed := h.mem_failures
  rw [hreports, Option.mem_toList, Option.bind_eq_some_iff] at hfailed
  obtain ⟨outcome, hresult, herror⟩ := hfailed
  cases outcome with
  | ok v => cases herror
  | error e' =>
      cases herror
      exact hresult

end Failure

/-- An evaluation fails where its request is unfit, and then nothing was asked,
or where the cache has neither a verdict nor candidates for it and the store fails:
the store is then asked for the policies of no tenant, and if it answers that in
order, for those of the tenant. A failure leaves everything as it was, and may be
tried again unless the request is unfit. After a failed query the store is not asked
again. Answers of the cache that are of no use count as no find, and documents of
policies that cannot be read as absent. -/
theorem evaluate_fails (collaborators : Collaborators σ) (s : σ) (c : Config) (r : Request) :
    let course := (Engine.evaluate c r).run collaborators s
    (∀ e, course.result = some (.error e) ↔ MustFail collaborators c r s e) ∧
      (∀ asked now after, ComesToStore collaborators c r s asked now after →
        ∃ rest, course.transcript =
            asked ++ ⟨.findGlobal now, (collaborators (.findGlobal now) after).1⟩ :: rest ∧
          ∀ name answer after', r.tenant = some name →
            collaborators (.findGlobal now) after = (some answer, after') →
            (∀ e, ¬ QueryFails c.storeBudget answer e) →
            ∃ later, rest =
              ⟨.findActive name now, (collaborators (.findActive name now) after').1⟩ :: later) ∧
      (∀ e, course.result = some (.error e) ↔ Fails c r course.transcript e) ∧
      (r.defect? ≠ none → course.transcript = [] ∧ course.state = s) ∧
      (∀ e, course.result = some (.error e) →
        (r.defect? = none → e.isRetryable = true) ∧
          ∀ x ∈ course.transcript, x.question.isInquiry = true) ∧
      (∀ now answer e, ⟨.findGlobal now, some answer⟩ ∈ course.transcript →
        QueryFails c.storeBudget answer e →
          ∀ x ∈ course.transcript, ∀ name now, x.question ≠ .findActive name now) ∧
      ((Engine.evaluate c r).run (forgetting c r collaborators) s).Alike course ∧
      ∀ policies now,
        (rule c r (policies.map Policy.mended) now).verdict = (rule c r policies now).verdict ∧
        Engine.dispatchActions (rule c r (policies.map Policy.mended) now) r =
          Engine.dispatchActions (rule c r policies now) r ∧
        Policy.distinct (policies.map Policy.mended) =
          (Policy.distinct policies).map Policy.mended := by
  intro course
  have hfailure : ∀ e, course.result = some (.error e) → Failure c r course.transcript e := by
    intro e hresult
    have hheld := Dialogue.held_run collaborators (Engine.evaluate c r) s
    change Held _ course.transcript course.result at hheld
    rw [hresult] at hheld
    exact failed_evaluate hheld
  have hunfit : ∀ cause, r.defect? = some cause →
      course = ⟨some (.error (.invalidRequest cause)), [], s⟩ := fun cause => evaluate_unfit
  refine ⟨fun e => evaluate_error_iff, fun asked now after => evaluate_asks_store, ?_, ?_, ?_, ?_,
    unheeding_evaluate s, ?_⟩
  · intro e
    constructor
    · exact fun hresult => (hfailure e hresult).fails
    · rintro (⟨cause, hdefect⟩ | ⟨hfit, -, -, hstore⟩)
      · rw [hunfit cause hdefect]
      · exact failed_of_storeFails hfit hstore
  · intro hdefect
    obtain ⟨cause, hcause⟩ := Option.ne_none_iff_exists'.mp hdefect
    rw [hunfit cause hcause]
    exact ⟨rfl, rfl⟩
  · intro e hresult
    exact ⟨(hfailure e hresult).isRetryable, (hfailure e hresult).isInquiry⟩
  · intro now answer e hasked hfails
    cases hdefect : r.defect? with
    | some cause =>
        rw [hunfit cause hdefect] at hasked
        cases hasked
    | none =>
        have hstore : StoreFails c r.tenant course.transcript e := .global now answer hasked hfails
        exact (hfailure e (failed_of_storeFails hdefect hstore)).stops hasked hfails
  · intro policies now
    exact ⟨by rw [rule_mended], dispatchActions_mended c r policies now,
      Policy.distinctBeyond_mended [] policies⟩

end DecisionPoint
