import DecisionPoint.Engine
import DecisionPoint.Proofs.Transcript

/-!
Which questions a dialogue may ask, whatever the answers. Each part of an
evaluation asks one of the collaborators only: the cache is read, the store is
queried, the cache is written and actions are dispatched, one part after the
other.
-/

namespace DecisionPoint

open Time (Instant)

namespace Dialogue

/-- All questions of a dialogue are of some kind, whatever the answers. -/
def Asks (kind : Question → Prop) (x : Dialogue α) : Prop :=
  ∀ transcript result, Held x transcript result → ∀ e ∈ transcript, kind e.question

section Asks

variable {kind : Question → Prop}

theorem asks_pure (a : α) : Asks kind (pure a : Dialogue α) := by
  intro transcript result h
  rw [h.of_pure.1]
  exact fun _ he => by cases he

theorem asks_query {question : Question} (h : kind question) : Asks kind (query question) := by
  intro transcript result hheld
  rw [hheld.of_query]
  intro e he
  rw [List.mem_singleton.mp he]
  exact h

theorem Asks.bind {x : Dialogue α} {f : α → Dialogue β} (hx : Asks kind x)
    (hf : ∀ a, Asks kind (f a)) : Asks kind (x >>= f) := by
  intro transcript result h
  rcases h.of_bind with ⟨hbroken, -⟩ | ⟨a, front, back, rfl, hfront, hback⟩
  · exact hx _ _ hbroken
  · intro e he
    rcases List.mem_append.mp he with hfirst | hrest
    · exact hx _ _ hfront e hfirst
    · exact hf a _ _ hback e hrest

end Asks

/-- What a dialogue asks first, and what it asks after any answer, is of the kind. -/
theorem Asks.of_ask {kind : Question → Prop} {question : Question}
    {next : question.Answer → Dialogue α} (h : Asks kind (.ask question next)) :
    kind question ∧ ∀ answer, Asks kind (next answer) := by
  constructor
  · exact h _ _ (.broken question next) _ List.mem_cons_self
  · intro answer transcript result hheld e he
    exact h _ _ (.answered question next answer hheld) e (List.mem_cons_of_mem _ he)

/-- Collaborators that answer the questions of a kind alike, in states that
correspond before and after, hold a dialogue that asks no others alike. -/
theorem Asks.run_agrees {kind : Question → Prop} {collaborators : Collaborators σ}
    {others : Collaborators τ} {R : σ → τ → Prop}
    (hstep : ∀ question s t, kind question → R s t →
      (collaborators question s).1 = (others question t).1 ∧
        R (collaborators question s).2 (others question t).2)
    {x : Dialogue α} (hasks : Asks kind x) {s : σ} {t : τ} (h : R s t) :
    (x.run collaborators s).result = (x.run others t).result ∧
      (x.run collaborators s).transcript = (x.run others t).transcript ∧
      R (x.run collaborators s).state (x.run others t).state := by
  induction x generalizing s t with
  | done result => exact ⟨rfl, rfl, h⟩
  | ask question next ih =>
      obtain ⟨hquestion, hnext⟩ := hasks.of_ask
      obtain ⟨hanswer, hafter⟩ := hstep question s t hquestion h
      simp only [run]
      generalize collaborators question s = asked at *
      generalize others question t = asked' at *
      obtain ⟨answer, after⟩ := asked
      obtain ⟨answer', after'⟩ := asked'
      cases hanswer
      cases answer with
      | none => exact ⟨rfl, rfl, hafter⟩
      | some answer =>
          obtain ⟨hresult, htranscript, hstate⟩ := ih answer (hnext answer) hafter
          exact ⟨hresult, congrArg (⟨question, some answer⟩ :: ·) htranscript, hstate⟩

/-- What every question of a kind preserves in the collaborators is preserved by a
dialogue that asks no others. -/
theorem Asks.run_preserves {kind : Question → Prop} {collaborators : Collaborators σ}
    {P : σ → Prop} (hstep : ∀ question s, kind question → P s → P (collaborators question s).2)
    {x : Dialogue α} (hasks : Asks kind x) {s : σ} (h : P s) :
    P (x.run collaborators s).state := by
  have hself : ∀ question s t, kind question → s = t ∧ P s →
      (collaborators question s).1 = (collaborators question t).1 ∧
        (collaborators question s).2 = (collaborators question t).2 ∧
          P (collaborators question s).2 := by
    rintro question s _ hquestion ⟨rfl, hs⟩
    exact ⟨rfl, rfl, hstep question s hquestion hs⟩
  exact (hasks.run_agrees hself ⟨rfl, h⟩).2.2.2

/-- What every question preserves in the collaborators is preserved by any dialogue. -/
theorem run_preserves {collaborators : Collaborators σ} {P : σ → Prop}
    (hstep : ∀ question s, P s → P (collaborators question s).2) (x : Dialogue α) {s : σ}
    (h : P s) : P (x.run collaborators s).state := by
  have hasks : Asks (fun _ => True) x := fun _ _ _ _ _ => trivial
  exact hasks.run_preserves (fun question s _ => hstep question s) h

/-- What is read off other questions only is not in the transcript. -/
theorem filterMap_of_asks {kind : Question → Prop} {x : Dialogue α} (hasks : Asks kind x)
    {f : Exchange → Option β} (hf : ∀ e, kind e.question → f e = none)
    {transcript : List Exchange} {result : Option α} (h : Held x transcript result) :
    transcript.filterMap f = [] :=
  List.filterMap_eq_nil_iff.mpr fun e he => hf e (hasks _ _ h e he)

/-- What is asked by a dialogue that goes on with a result was asked before the
result or after it. -/
theorem mem_run_bind {collaborators : Collaborators σ} {x : Dialogue α} {f : α → Dialogue β}
    {s : σ} {e : Exchange} (h : e ∈ ((x >>= f).run collaborators s).transcript) :
    e ∈ (x.run collaborators s).transcript ∨
      ∃ a, (x.run collaborators s).result = some a ∧
        e ∈ ((f a).run collaborators (x.run collaborators s).state).transcript := by
  rw [run_bind, Course.andThen] at h
  split at h
  · exact .inl h
  · rename_i a hresult
    rcases List.mem_append.mp h with hfirst | hrest
    · exact .inl hfirst
    · exact .inr ⟨a, hresult, hrest⟩

end Dialogue

open Dialogue (Asks asks_pure asks_query)

/-! ## The parts of an evaluation -/

/-- The candidates of a scope for which the cache has none: those of the store,
which are then kept. -/
def Engine.newCandidates (c : Config) (tenant : Option String) (now : Instant) :
    Dialogue (Except EngineError (List Policy)) := do
  match ← Engine.queryStore c tenant now with
  | .error e => return .error e
  | .ok found =>
    let policies := Policy.distinct found
    if c.cacheCandidates then
      DecisionCache.putCandidates c tenant policies (Engine.candidateCap policies now)
    return .ok policies

/-- What follows when a request was decided: the verdict is kept and the actions
are dispatched. -/
def Engine.conclude (c : Config) (r : Request) (ruling : Ruling) :
    Dialogue (Except EngineError Verdict) := do
  DecisionCache.putDecision c r ruling.verdict
  Engine.dispatchActions ruling r
  return .ok ruling.verdict

theorem candidates_eq (c : Config) (tenant : Option String) (now : Instant) :
    Engine.candidates c tenant now = (Engine.keptCandidates c tenant >>= fun kept =>
      kept.elim (Engine.newCandidates c tenant now) fun policies => return .ok policies) := by
  unfold Engine.candidates
  congr 1
  funext kept
  cases kept with
  | none => rfl
  | some policies => rfl

theorem evaluateAnew_eq (c : Config) (r : Request) :
    Engine.evaluateAnew c r = (Dialogue.query .now >>= fun now =>
      Engine.candidates c r.tenant now >>= fun
        | .error e => return .error e
        | .ok policies => Engine.conclude c r (rule c r policies now)) :=
  rfl

section Parts

variable {kind : Question → Prop}

theorem asks_readText {key : String} (hget : kind (.cacheGet key)) (budget : Nat) :
    Asks kind (DecisionCache.readText budget key) := by
  apply (asks_query hget).bind
  intro answer
  cases answer.outcome with
  | error e => exact asks_pure _
  | ok found =>
      cases found with
      | none => exact asks_pure _
      | some text => exact asks_pure _

theorem asks_getDecision {r : Request} (hget : kind (.cacheGet (Key.decision r))) (c : Config) :
    Asks kind (DecisionCache.getDecision c r) :=
  (asks_readText hget _).bind fun _ => asks_pure _

theorem asks_getCandidates {tenant : Option String}
    (hget : kind (.cacheGet (Key.candidates tenant))) (c : Config) :
    Asks kind (DecisionCache.getCandidates c tenant) :=
  (asks_readText hget _).bind fun _ => asks_pure _

theorem asks_keptCandidates {tenant : Option String}
    (hget : kind (.cacheGet (Key.candidates tenant))) (c : Config) :
    Asks kind (Engine.keptCandidates c tenant) := by
  unfold Engine.keptCandidates
  split
  · exact asks_getCandidates hget c
  · exact asks_pure _

theorem asks_queryStore (hglobal : ∀ now, kind (.findGlobal now))
    (hown : ∀ tenant now, kind (.findActive tenant now)) (c : Config) (tenant : Option String)
    (now : Instant) : Asks kind (Engine.queryStore c tenant now) := by
  apply (asks_query (hglobal now)).bind
  intro answer
  cases Engine.judge c.storeBudget answer with
  | error e => exact asks_pure _
  | ok found =>
      cases tenant with
      | none => exact asks_pure _
      | some name => exact (asks_query (hown name now)).bind fun _ => asks_pure _

theorem asks_write {key text : String} {ttl : Nat} (hset : kind (.cacheSet key text ttl)) :
    Asks kind (DecisionCache.write key text ttl) := by
  unfold DecisionCache.write
  split
  · exact asks_pure _
  · exact (asks_query hset).bind fun _ => asks_pure _

theorem asks_newCandidates {tenant : Option String}
    (hset : ∀ text ttl, kind (.cacheSet (Key.candidates tenant) text ttl))
    (hglobal : ∀ now, kind (.findGlobal now))
    (hown : ∀ tenant now, kind (.findActive tenant now)) (c : Config) (now : Instant) :
    Asks kind (Engine.newCandidates c tenant now) := by
  apply (asks_queryStore hglobal hown c tenant now).bind
  intro outcome
  cases outcome with
  | error e => exact asks_pure _
  | ok found =>
      by_cases hswitch : c.cacheCandidates = true
      · simp only [hswitch, if_true]
        exact (asks_write (hset _ _)).bind fun _ => asks_pure _
      · simp only [hswitch]
        exact asks_pure _

/-- Loading candidates asks the cache for their key, and the store. -/
theorem asks_candidates {tenant : Option String}
    (hget : kind (.cacheGet (Key.candidates tenant)))
    (hset : ∀ text ttl, kind (.cacheSet (Key.candidates tenant) text ttl))
    (hglobal : ∀ now, kind (.findGlobal now))
    (hown : ∀ tenant now, kind (.findActive tenant now)) (c : Config) (now : Instant) :
    Asks kind (Engine.candidates c tenant now) := by
  rw [candidates_eq]
  apply (asks_keptCandidates hget c).bind
  intro kept
  cases kept with
  | none => exact asks_newCandidates hset hglobal hown c now
  | some policies => exact asks_pure _

theorem asks_dispatchActions (hdispatch : ∀ actions context, kind (.dispatch actions context))
    (ruling : Ruling) (r : Request) : Asks kind (Engine.dispatchActions ruling r) := by
  unfold Engine.dispatchActions
  cases ruling.winner with
  | none => exact asks_pure _
  | some p =>
      by_cases hempty : p.actionList.isEmpty = true
      · simp only [hempty]
        exact asks_pure _
      · simp only [hempty]
        exact asks_query (hdispatch _ _)

theorem asks_evictDecision {r : Request} (hdelete : kind (.cacheDelete (Key.decision r))) :
    Asks kind (DecisionCache.evictDecision r) :=
  (asks_query hdelete).bind fun _ => asks_pure _

theorem asks_evictAllUnder {start : String} (hdelete : kind (.cacheDeleteAll start)) :
    Asks kind (DecisionCache.evictAllUnder start) := by
  apply (asks_query hdelete).bind
  intro answer
  cases answer with
  | ok removed => exact asks_pure _
  | error e => exact asks_pure _

theorem asks_evictAll (hdelete : ∀ start, kind (.cacheDeleteAll start)) :
    Asks kind DecisionCache.evictAll :=
  (asks_evictAllUnder (hdelete _)).bind fun _ =>
    (asks_evictAllUnder (hdelete _)).bind fun _ => asks_pure _

theorem asks_conclude {r : Request}
    (hset : ∀ text ttl, kind (.cacheSet (Key.decision r) text ttl))
    (hdispatch : ∀ actions context, kind (.dispatch actions context)) (c : Config)
    (ruling : Ruling) : Asks kind (Engine.conclude c r ruling) :=
  (asks_write (hset _ _)).bind fun _ =>
    (asks_dispatchActions hdispatch ruling r).bind fun _ => asks_pure _

end Parts

end DecisionPoint
