import DecisionPoint.Proofs.Questions
import DecisionPoint.Proofs.Tolerance

/-!
What a transcript says of the policy that decided. A transcript holds the
readings of the clock, the answers of the cache and the finds of the store, and
so tells whether a verdict was served and from which candidates the request was
decided otherwise. The actions that an evaluation dispatches are those of the
winner, and there are none where it was served a verdict or failed.
-/

namespace DecisionPoint

open Dialogue (Held asks_query filterMap_of_asks)
open Time (Instant)

def Exchange.answerFor? (key : String) :
    Exchange → Option (Timed (Except CacheError (Option String)))
  | ⟨.cacheGet read, some answer⟩ => if read = key then some answer else none
  | _ => none

def Exchange.time? : Exchange → Option Instant
  | ⟨.now, some now⟩ => some now
  | _ => none

def Exchange.jobs : Exchange → List Job
  | ⟨.dispatch actions context, some _⟩ => (Dispatcher.inOrder actions).map (Job.mk · context)
  | _ => []

def answersFor (key : String) (transcript : List Exchange) :
    List (Timed (Except CacheError (Option String))) :=
  transcript.filterMap (Exchange.answerFor? key)

def findsIn (transcript : List Exchange) : List Policy :=
  (queries transcript).flatMap fun q => q.2.2

def dispatched (transcript : List Exchange) : List Job :=
  transcript.flatMap Exchange.jobs

def servedIn? (c : Config) (r : Request) (transcript : List Exchange) : Option Verdict :=
  (answersFor (Key.decision r) transcript).findSome? (verdictIn? c)

/-- The candidates of a scope: the list that the cache served, or else what the
store found. -/
def candidatesIn (c : Config) (tenant : Option String) (transcript : List Exchange) :
    List Policy :=
  ((answersFor (Key.candidates tenant) transcript).findSome? (listIn? c)).getD
    (Policy.distinct (findsIn transcript))

/-- The policy that decided a request, unless a verdict was served. -/
def winnerIn? (c : Config) (r : Request) (transcript : List Exchange) : Option Policy :=
  if (servedIn? c r transcript).isSome then none
  else (transcript.findSome? Exchange.time?).bind fun now =>
    (rule c r (candidatesIn c r.tenant transcript) now).winner

/-- The number of actions that are due for an evaluation: those of the policy that
decided, if the evaluation came to a verdict. -/
def due (c : Config) (r : Request) (transcript : List Exchange) :
    Option (Except EngineError Verdict) → Nat
  | some (.ok _) => (winnerIn? c r transcript).elim 0 fun p => p.actionList.length
  | _ => 0

/-! ## What a part of a dialogue leaves out -/

theorem answersFor_of_asks {key : String} {x : Dialogue α}
    (hasks : x.Asks fun question => question ≠ .cacheGet key) {transcript : List Exchange}
    {result : Option α} (h : Held x transcript result) : answersFor key transcript = [] := by
  apply filterMap_of_asks hasks ?_ h
  rintro ⟨question, answer⟩ hkind
  cases question with
  | cacheGet read =>
      cases answer with
      | none => rfl
      | some answer =>
          apply if_neg
          rintro rfl
          exact hkind rfl
  | _ => rfl

theorem findsIn_of_asks {x : Dialogue α}
    (hasks : x.Asks fun question =>
      (∀ now, question ≠ .findGlobal now) ∧ ∀ tenant now, question ≠ .findActive tenant now)
    {transcript : List Exchange} {result : Option α} (h : Held x transcript result) :
    findsIn transcript = [] := by
  have hnone : queries transcript = [] := by
    apply filterMap_of_asks hasks ?_ h
    rintro ⟨question, answer⟩ ⟨hglobal, hown⟩
    cases question with
    | findGlobal now => exact absurd rfl (hglobal now)
    | findActive tenant now => exact absurd rfl (hown tenant now)
    | _ => rfl
  rw [findsIn, hnone]
  rfl

theorem dispatched_of_asks {x : Dialogue α}
    (hasks : x.Asks fun question => ∀ actions context, question ≠ .dispatch actions context)
    {transcript : List Exchange} {result : Option α} (h : Held x transcript result) :
    dispatched transcript = [] := by
  apply List.flatMap_eq_nil_iff.mpr
  rintro ⟨question, answer⟩ he
  have hkind := hasks _ _ h _ he
  cases question with
  | dispatch actions context => exact absurd rfl (hkind actions context)
  | _ => rfl

theorem answersFor_append (key : String) (front back : List Exchange) :
    answersFor key (front ++ back) = answersFor key front ++ answersFor key back :=
  List.filterMap_append

/-- What is made of the only read of a key. -/
theorem findSome?_read (key : String) (answer : Timed (Except CacheError (Option String)))
    (f : Timed (Except CacheError (Option String)) → Option α) :
    (answersFor key [⟨.cacheGet key, some answer⟩]).findSome? f = f answer := by
  have hread : answersFor key [⟨.cacheGet key, some answer⟩] = [answer] :=
    List.filterMap_cons_some (if_pos rfl)
  rw [hread, List.findSome?_singleton]

theorem answersFor_other {key read : String} (hother : read ≠ key)
    (answer : Option (Timed (Except CacheError (Option String)))) :
    answersFor key [⟨.cacheGet read, answer⟩] = [] := by
  cases answer with
  | none => rfl
  | some answer => exact List.filterMap_cons_none (if_neg hother)

theorem findsIn_append (front back : List Exchange) :
    findsIn (front ++ back) = findsIn front ++ findsIn back := by
  simp [findsIn, queries]

theorem dispatched_append (front back : List Exchange) :
    dispatched (front ++ back) = dispatched front ++ dispatched back :=
  List.flatMap_append

/-! ## The candidates -/

section Candidates

variable {c : Config} {tenant : Option String} {now : Instant} {transcript : List Exchange}

theorem findsIn_global (now : Instant) (answer : Timed (Except StoreError (List Policy)))
    {found : List Policy} (h : answer.outcome = .ok found) :
    findsIn [⟨.findGlobal now, some answer⟩] = found := by
  rw [findsIn, queries, List.filterMap_cons_some (Exchange.query?_findGlobal now h)]
  exact List.append_nil _

theorem findsIn_active (name : String) (now : Instant)
    (answer : Timed (Except StoreError (List Policy))) {found : List Policy}
    (h : answer.outcome = .ok found) : findsIn [⟨.findActive name now, some answer⟩] = found := by
  rw [findsIn, queries, List.filterMap_cons_some (Exchange.query?_findActive name now h)]
  exact List.append_nil _

/-- Asking the store finds just what it answers. -/
theorem findsIn_queryStore {found : List Policy}
    (h : Held (Engine.queryStore c tenant now) transcript (some (.ok found))) :
    findsIn transcript = found := by
  obtain ⟨answer, front, back, rfl, hglobal, hrest⟩ := h.of_bind_some
  rw [hglobal.of_query, findsIn_append]
  cases hjudge : Engine.judge c.storeBudget answer with
  | error e =>
      rw [hjudge] at hrest
      cases hrest.of_pure.2
  | ok global =>
      rw [hjudge] at hrest
      rw [findsIn_global now answer (Deployment.judge_ok hjudge)]
      cases tenant with
      | none =>
          obtain ⟨rfl, hsame⟩ := hrest.of_pure
          cases hsame
          exact List.append_nil _
      | some name =>
          obtain ⟨answer', front', back', rfl, hown, hdone⟩ := hrest.of_bind_some
          obtain ⟨rfl, hresult⟩ := hdone.of_pure
          rw [hown.of_query, List.append_nil]
          cases hjudge' : Engine.judge c.storeBudget answer' with
          | error e =>
              rw [hjudge'] at hresult
              cases hresult
          | ok own =>
              rw [hjudge'] at hresult
              cases hresult
              rw [findsIn_active name now answer' (Deployment.judge_ok hjudge')]

/-- The candidates of the store, as a transcript tells them. -/
theorem findsIn_newCandidates {policies : List Policy}
    (h : Held (Engine.newCandidates c tenant now) transcript (some (.ok policies))) :
    policies = Policy.distinct (findsIn transcript) := by
  obtain ⟨outcome, front, back, rfl, hquery, hdone⟩ := h.of_bind_some
  cases outcome with
  | error e => cases hdone.of_pure.2
  | ok found =>
      rw [findsIn_append, findsIn_queryStore hquery]
      by_cases hswitch : c.cacheCandidates = true
      · simp only [hswitch, if_true] at hdone
        obtain ⟨_, writes, rest, rfl, hwrite, hok⟩ := hdone.of_bind_some
        obtain ⟨rfl, hsame⟩ := hok.of_pure
        cases hsame
        rw [List.append_nil, findsIn_of_asks (asks_write (by simp)) hwrite,
          List.append_nil]
      · simp only [hswitch] at hdone
        obtain ⟨rfl, hsame⟩ := hdone.of_pure
        cases hsame
        rw [findsIn, queries, List.filterMap_nil, List.flatMap_nil, List.append_nil]

/-- What the cache served of candidates is what was kept of them. -/
theorem findSome?_keptCandidates {kept : Option (List Policy)}
    (h : Held (Engine.keptCandidates c tenant) transcript (some kept)) :
    (answersFor (Key.candidates tenant) transcript).findSome? (listIn? c) = kept := by
  rw [keptCandidates_eq] at h
  split at h
  · rcases h.of_asked with ⟨-, hnone⟩ | ⟨answer, rfl, hlist⟩
    · cases hnone
    · rw [Option.some.inj hlist]
      exact findSome?_read _ answer _
  · obtain ⟨rfl, hsame⟩ := h.of_pure
    cases hsame
    rfl

/-- The candidates can be told from what was asked for them. -/
theorem candidatesIn_candidates {policies : List Policy}
    (h : Held (Engine.candidates c tenant now) transcript (some (.ok policies))) :
    candidatesIn c tenant transcript = policies := by
  rw [candidates_eq] at h
  obtain ⟨kept, front, back, rfl, hkept, hrest⟩ := h.of_bind_some
  have hfinds : findsIn front = [] :=
    findsIn_of_asks (asks_keptCandidates (by simp) c) hkept
  rw [candidatesIn, answersFor_append, List.findSome?_append, findSome?_keptCandidates hkept,
    findsIn_append, hfinds, List.nil_append]
  cases kept with
  | some list =>
      obtain ⟨-, hsame⟩ := hrest.of_pure
      cases hsame
      rfl
  | none =>
      have hunread : answersFor (Key.candidates tenant) back = [] :=
        answersFor_of_asks (asks_newCandidates (by simp) (by simp) (by simp) c now) hrest
      rw [hunread]
      exact (findsIn_newCandidates hrest).symm

end Candidates

/-! ## The actions -/

section Actions

variable {c : Config} {r : Request} {transcript : List Exchange}

theorem length_jobs (actions : List Action) (context : ActionContext) (answer : Unit) :
    (Exchange.jobs ⟨.dispatch actions context, some answer⟩).length = actions.length := by
  simp [Exchange.jobs, Dispatcher.inOrder]

/-- The actions of the winner are handed over whole. -/
theorem dispatched_dispatchActions {ruling : Ruling} {result : Option Unit}
    (h : Held (Engine.dispatchActions ruling r) transcript result) :
    (dispatched transcript).length =
      result.elim 0 fun _ => ruling.winner.elim 0 fun p => p.actionList.length := by
  unfold Engine.dispatchActions at h
  cases hwinner : ruling.winner with
  | none =>
      rw [hwinner] at h
      obtain ⟨rfl, rfl⟩ := h.of_pure
      rfl
  | some p =>
      rw [hwinner] at h
      by_cases hempty : p.actionList.isEmpty = true
      · simp only [hempty] at h
        obtain ⟨rfl, rfl⟩ := h.of_pure
        simp only [Option.elim, List.isEmpty_iff.mp hempty]
        rfl
      · simp only [hempty] at h
        rw [h.of_query, dispatched, List.flatMap_singleton]
        cases result with
        | none => rfl
        | some answer => exact length_jobs _ _ _

/-- What is dispatched when a request was decided are the actions of the winner. -/
theorem dispatched_conclude {ruling : Ruling} {result : Option (Except EngineError Verdict)}
    (h : Held (Engine.conclude c r ruling) transcript result) :
    (dispatched transcript).length =
        result.elim 0 (fun _ => ruling.winner.elim 0 fun p => p.actionList.length) ∧
      ∀ outcome, result = some outcome → outcome = .ok ruling.verdict := by
  have hquiet : ∀ {part : List Exchange} {written : Option Unit},
      Held (DecisionCache.putDecision c r ruling.verdict) part written → dispatched part = [] :=
    dispatched_of_asks (asks_write (by simp))
  rcases h.of_bind with ⟨hbroken, rfl⟩ | ⟨_, front, back, rfl, hwrite, hrest⟩
  · exact ⟨congrArg List.length (hquiet hbroken), fun _ hnone => by cases hnone⟩
  rw [dispatched_append, hquiet hwrite, List.nil_append]
  rcases hrest.of_bind with ⟨hbroken, rfl⟩ | ⟨_, handed, rest, rfl, hdispatch, hdone⟩
  · exact ⟨dispatched_dispatchActions hbroken, fun _ hnone => by cases hnone⟩
  · obtain ⟨rfl, rfl⟩ := hdone.of_pure
    rw [List.append_nil]
    refine ⟨dispatched_dispatchActions hdispatch, ?_⟩
    rintro outcome houtcome
    exact (Option.some.inj houtcome).symm

/-! ## The ways of an evaluation -/

/-- What was asked before the candidates of an evaluation: the cache for the
verdict, in vain, and the clock. -/
structure Opening (c : Config) (r : Request) (now : Instant) (front : List Exchange) : Prop where
  unserved : servedIn? c r front = none
  time : front.findSome? Exchange.time? = some now
  unread : answersFor (Key.candidates r.tenant) front = []
  unqueried : findsIn front = []

/-- The exchanges before the candidates are loaded: the cache has no verdict, and the
clock is read. -/
def openingOf (r : Request) (read : Timed (Except CacheError (Option String))) (now : Instant) :
    List Exchange :=
  [⟨.cacheGet (Key.decision r), some read⟩, ⟨.now, some now⟩]

theorem opening_of_read (now : Instant) {read : Timed (Except CacheError (Option String))}
    (hread : verdictIn? c read = none) :
    Opening c r now (openingOf r read now) where
  unserved := (findSome?_read _ read _).trans hread
  time := rfl
  unread := answersFor_other (Key.decision_ne_candidates r r.tenant) (some read)
  unqueried := rfl

section Opening

variable {now : Instant} {front loading back : List Exchange} {policies : List Policy}
  {ruling : Ruling} {result : Option (Except EngineError Verdict)}
  (hopening : Opening c r now front)
  (hloading : Held (Engine.candidates c r.tenant now) loading (some (.ok policies)))
  (hconclude : Held (Engine.conclude c r ruling) back result)

include hopening hloading hconclude

theorem servedIn_of_opening : servedIn? c r (front ++ (loading ++ back)) = none := by
  have hother := Key.decision_ne_candidates r r.tenant
  have hunread : answersFor (Key.decision r) (loading ++ back) = [] := by
    rw [answersFor_append,
      answersFor_of_asks (asks_candidates (by simpa using hother.symm) (by simp) (by simp)
        (by simp) c now) hloading,
      answersFor_of_asks (asks_conclude (by simp) (by simp) c ruling) hconclude]
    rfl
  rw [servedIn?, answersFor_append, hunread, List.append_nil]
  exact hopening.unserved

theorem candidatesIn_of_opening :
    candidatesIn c r.tenant (front ++ (loading ++ back)) = policies := by
  rw [← candidatesIn_candidates hloading, candidatesIn, candidatesIn, answersFor_append,
    answersFor_append, findsIn_append, findsIn_append, hopening.unread, hopening.unqueried,
    answersFor_of_asks (asks_conclude (by simp) (by simp) c ruling) hconclude,
    findsIn_of_asks (asks_conclude (by simp) (by simp) c ruling) hconclude]
  simp only [List.nil_append, List.append_nil]

/-- Which policy decided shows in the answers that the candidates are made of. -/
theorem winnerIn_of_opening :
    winnerIn? c r (front ++ (loading ++ back)) = (rule c r policies now).winner := by
  rw [winnerIn?, servedIn_of_opening hopening hloading hconclude,
    candidatesIn_of_opening hopening hloading hconclude, List.findSome?_append, hopening.time]
  rfl

end Opening

/-- The ways that an evaluation may take: it ends before any candidates are loaded,
or in loading them, or goes on to decide from them. -/
inductive Way (c : Config) (r : Request) (result : Option (Except EngineError Verdict)) :
    List Exchange → Prop
  | early {transcript : List Exchange}
      (hasked : ∀ e ∈ transcript, e.question = .cacheGet (Key.decision r) ∨ e.question = .now)
      (hserved : ∀ v, result = some (.ok v) → servedIn? c r transcript = some v) :
      Way c r result transcript
  | unloaded (read : Timed (Except CacheError (Option String))) (now : Instant)
      {loading : List Exchange} {outcome : Option (Except EngineError (List Policy))}
      (hread : verdictIn? c read = none)
      (hloading : Held (Engine.candidates c r.tenant now) loading outcome)
      (hfailed : ∀ v, result ≠ some (.ok v)) :
      Way c r result (openingOf r read now ++ loading)
  | decided (read : Timed (Except CacheError (Option String))) (now : Instant)
      {loading conclusion : List Exchange} {policies : List Policy}
      (hread : verdictIn? c read = none)
      (hloading : Held (Engine.candidates c r.tenant now) loading (some (.ok policies)))
      (hconclude : Held (Engine.conclude c r (rule c r policies now)) conclusion result) :
      Way c r result (openingOf r read now ++ (loading ++ conclusion))

/-- However an evaluation is held, it goes one of the ways. -/
theorem way_of_held {result : Option (Except EngineError Verdict)}
    (h : Held (Engine.evaluate c r) transcript result) : Way c r result transcript := by
  unfold Engine.evaluate at h
  cases hdefect : r.defect? with
  | some cause =>
      rw [hdefect] at h
      obtain ⟨rfl, rfl⟩ := h.of_pure
      exact .early (fun _ he => by cases he) (fun _ h => by cases h)
  | none =>
      rw [hdefect] at h
      rcases h.of_bind with ⟨hbroken, rfl⟩ | ⟨kept, front, back, rfl, hkept, hrest⟩
      · have hasks : (DecisionCache.getDecision c r).Asks fun question =>
            question = .cacheGet (Key.decision r) ∨ question = .now :=
          asks_getDecision (.inl rfl) c
        exact .early (hasks _ _ hbroken) (fun _ h => by cases h)
      rw [getDecision_eq] at hkept
      rcases hkept.of_asked with ⟨-, hnone⟩ | ⟨read, rfl, hread⟩
      · cases hnone
      cases kept with
      | some v =>
          obtain ⟨rfl, rfl⟩ := hrest.of_pure
          refine .early (by simp) ?_
          rintro _ ⟨⟩
          exact (findSome?_read _ read _).trans (Option.some.inj hread).symm
      | none =>
          have hunread := (Option.some.inj hread).symm
          rcases hrest.of_bind with ⟨hbroken, rfl⟩ | ⟨now, clock, rest, rfl, hnow, hanew⟩
          · rw [hbroken.of_query]
            exact .early (by simp) (fun _ h => by cases h)
          rw [hnow.of_query]
          rcases hanew.of_bind with ⟨hbroken, rfl⟩ |
            ⟨outcome, loading, conclusion, rfl, hloading, hdone⟩
          · exact .unloaded read now hunread hbroken (fun _ h => by cases h)
          cases outcome with
          | error e =>
              obtain ⟨rfl, rfl⟩ := hdone.of_pure
              rw [List.append_nil]
              exact .unloaded read now hunread hloading (fun _ h => by cases h)
          | ok policies => exact .decided read now hunread hloading hdone

/-- An evaluation dispatches the actions that are due for it and no others. -/
theorem length_dispatched {result : Option (Except EngineError Verdict)}
    (h : Held (Engine.evaluate c r) transcript result) :
    (dispatched transcript).length = due c r transcript result := by
  cases way_of_held h with
  | early hasked hserved =>
      have hnone : dispatched transcript = [] := by
        apply List.flatMap_eq_nil_iff.mpr
        rintro ⟨question, answer⟩ he
        rcases hasked _ he with rfl | rfl <;> rfl
      rw [hnone]
      cases result with
      | none => rfl
      | some outcome =>
          cases outcome with
          | error e => rfl
          | ok v =>
              rw [due, winnerIn?, hserved v rfl]
              rfl
  | unloaded read now hread hloading hfailed =>
      rw [dispatched_append, dispatched_of_asks (asks_candidates (by simp) (by simp) (by simp)
        (by simp) c now) hloading]
      cases result with
      | none => rfl
      | some outcome =>
          cases outcome with
          | error e => rfl
          | ok v => exact absurd rfl (hfailed v)
  | decided read now hread hloading hconclude =>
      obtain ⟨hcount, hverdict⟩ := dispatched_conclude hconclude
      rw [dispatched_append, dispatched_append, dispatched_of_asks (asks_candidates (by simp)
        (by simp) (by simp) (by simp) c now) hloading]
      refine hcount.trans ?_
      cases result with
      | none => rfl
      | some outcome =>
          obtain rfl := hverdict outcome rfl
          rw [due, winnerIn_of_opening (opening_of_read now hread) hloading hconclude]
          rfl

end Actions

end DecisionPoint
