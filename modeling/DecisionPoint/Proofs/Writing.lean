import DecisionPoint.Proofs.Winner

/-!
What an evaluation writes into the cache, whatever the answers. The candidates that
the store found are kept under the key of their scope, and the verdict under the key
of its request, each once at most and for a span of its own; whatever else is asked
writes nothing. So what was written can be read off the way that the evaluation took.
-/

namespace DecisionPoint

open Dialogue (Held asks_query filterMap_of_asks)
open Time (Instant)

def Exchange.write? (key : String) : Exchange → Option (String × Nat)
  | ⟨.cacheSet written text ttl, _⟩ => if written = key then some (text, ttl) else none
  | _ => none

/-- What was written under a key, with the spans it was to be kept for. -/
def writesTo (key : String) (transcript : List Exchange) : List (String × Nat) :=
  transcript.filterMap (Exchange.write? key)

def listedIn? (c : Config) (tenant : Option String) (transcript : List Exchange) :
    Option (List Policy) :=
  (answersFor (Key.candidates tenant) transcript).findSome? (listIn? c)

theorem writesTo_append (key : String) (front back : List Exchange) :
    writesTo key (front ++ back) = writesTo key front ++ writesTo key back :=
  List.filterMap_append

/-- A dialogue that does not write under a key leaves nothing there. -/
theorem writesTo_of_asks {key : String} {x : Dialogue α}
    (hasks : x.Asks fun question => ∀ text ttl, question ≠ .cacheSet key text ttl)
    {transcript : List Exchange} {result : Option α} (h : Held x transcript result) :
    writesTo key transcript = [] := by
  apply filterMap_of_asks hasks ?_ h
  rintro ⟨question, answer⟩ hkind
  cases question with
  | cacheSet written text ttl =>
      apply if_neg
      rintro rfl
      exact hkind text ttl rfl
  | _ => rfl

/-- A write for some span is one write, and a write for none is no write. -/
theorem writesTo_write {key text : String} {ttl : Nat} {transcript : List Exchange}
    {result : Option Unit} (h : Held (DecisionCache.write key text ttl) transcript result) :
    writesTo key transcript = if ttl = 0 then [] else [(text, ttl)] := by
  unfold DecisionCache.write at h
  by_cases hspan : ttl = 0
  · rw [if_pos hspan] at h ⊢
    rw [h.of_pure.1]
    rfl
  · rw [if_neg hspan] at h ⊢
    have hwritten : ∀ answer, Exchange.write? key ⟨.cacheSet key text ttl, answer⟩ =
        some (text, ttl) :=
      fun _ => if_pos rfl
    rcases h.of_asked with ⟨rfl, -⟩ | ⟨answer, rfl, -⟩
    · exact List.filterMap_cons_some (hwritten none)
    · exact List.filterMap_cons_some (hwritten (some answer))

theorem ofMinutes_eq_zero_iff (minutes : UInt32) :
    Time.ofMinutes minutes.toNat = 0 ↔ minutes = 0 := by
  rw [← UInt32.toNat_inj, UInt32.toNat_zero]
  simp only [Time.ofMinutes, Time.nanosPerSecond]
  omega

/-! ## Candidates -/

def candidateSpan (c : Config) (policies : List Policy) (now : Instant) : Nat :=
  DecisionCache.candidateTtl c (Engine.candidateCap policies now)

def candidateWrites (c : Config) (policies : List Policy) (now : Instant) : List (String × Nat) :=
  if c.cacheCandidates = true ∧ candidateSpan c policies now ≠ 0 then
    [(Policy.listToText policies, candidateSpan c policies now)]
  else []

section Candidates

variable {c : Config} {tenant : Option String} {now : Instant} {transcript : List Exchange}
  {result : Option (Except EngineError (List Policy))}

/-- Once the store has found the candidates they are written, and before that nothing
is. -/
theorem writesTo_newCandidates (h : Held (Engine.newCandidates c tenant now) transcript result) :
    (writesTo (Key.candidates tenant) transcript = [] ∧ ∀ policies, result ≠ some (.ok policies)) ∨
      writesTo (Key.candidates tenant) transcript =
        candidateWrites c (Policy.distinct (findsIn transcript)) now := by
  have hquiet : ∀ {part : List Exchange} {found : Option (Except EngineError (List Policy))},
      Held (Engine.queryStore c tenant now) part found →
        writesTo (Key.candidates tenant) part = [] :=
    writesTo_of_asks (asks_queryStore (by simp) (by simp) c tenant now)
  rcases h.of_bind with ⟨hbroken, rfl⟩ | ⟨outcome, front, back, rfl, hquery, hrest⟩
  · exact .inl ⟨hquiet hbroken, fun _ h => by cases h⟩
  cases outcome with
  | error e =>
      obtain ⟨rfl, rfl⟩ := hrest.of_pure
      rw [List.append_nil]
      exact .inl ⟨hquiet hquery, fun _ h => by cases h⟩
  | ok found =>
      refine .inr ?_
      rw [writesTo_append, hquiet hquery, List.nil_append, findsIn_append, findsIn_queryStore hquery]
      unfold candidateWrites
      by_cases hswitch : c.cacheCandidates = true
      · simp only [hswitch, if_true] at hrest
        obtain ⟨written, hwrite, hfinds⟩ : ∃ written,
            Held (DecisionCache.putCandidates c tenant (Policy.distinct found)
              (Engine.candidateCap (Policy.distinct found) now)) back written ∧
            findsIn back = [] := by
          rcases hrest.of_bind with ⟨hwrite, -⟩ | ⟨_, write, rest, rfl, hwrite, hdone⟩
          · exact ⟨none, hwrite, findsIn_of_asks (asks_write (by simp)) hwrite⟩
          · rw [hdone.of_pure.1, List.append_nil]
            exact ⟨_, hwrite, findsIn_of_asks (asks_write (by simp)) hwrite⟩
        rw [hfinds, List.append_nil, writesTo_write hwrite]
        simp only [hswitch, true_and, candidateSpan, ne_eq, ite_not]
      · simp only [hswitch] at hrest
        rw [hrest.of_pure.1]
        simp [hswitch, writesTo]

/-- Candidates that the cache served are not written again. -/
theorem writesTo_candidates (h : Held (Engine.candidates c tenant now) transcript result) :
    (writesTo (Key.candidates tenant) transcript = [] ∧
        (listedIn? c tenant transcript = none → ∀ policies, result ≠ some (.ok policies))) ∨
      writesTo (Key.candidates tenant) transcript =
        candidateWrites c (Policy.distinct (findsIn transcript)) now := by
  have hquiet : ∀ {part : List Exchange} {kept : Option (Option (List Policy))},
      Held (Engine.keptCandidates c tenant) part kept →
        writesTo (Key.candidates tenant) part = [] ∧ findsIn part = [] :=
    fun hpart => ⟨writesTo_of_asks (asks_keptCandidates (by simp) c) hpart,
      findsIn_of_asks (asks_keptCandidates (by simp) c) hpart⟩
  rw [candidates_eq] at h
  rcases h.of_bind with ⟨hbroken, rfl⟩ | ⟨kept, front, back, rfl, hkept, hrest⟩
  · exact .inl ⟨(hquiet hbroken).1, fun _ _ h => by cases h⟩
  obtain ⟨hwrites, hfinds⟩ := hquiet hkept
  cases kept with
  | some policies =>
      obtain ⟨rfl, -⟩ := hrest.of_pure
      rw [List.append_nil]
      refine .inl ⟨hwrites, ?_⟩
      intro hunlisted
      rw [listedIn?, findSome?_keptCandidates hkept] at hunlisted
      cases hunlisted
  | none =>
      rw [writesTo_append, hwrites, findsIn_append, hfinds, List.nil_append, List.nil_append]
      exact (writesTo_newCandidates hrest).imp_left fun hnone => ⟨hnone.1, fun _ => hnone.2⟩

end Candidates

/-! ## An evaluation -/

section Evaluation

variable {c : Config} {r : Request} {transcript : List Exchange}
  {result : Option (Except EngineError Verdict)}

/-- What is written when a request was decided is the verdict, for its lifetime. -/
theorem writesTo_conclude {ruling : Ruling} (h : Held (Engine.conclude c r ruling) transcript result) :
    writesTo (Key.decision r) transcript =
      if DecisionCache.lifetime c ruling.verdict = 0 then []
      else [(ruling.verdict.toText,
        Time.ofMinutes (DecisionCache.lifetime c ruling.verdict).toNat)] := by
  rcases h.of_bind with ⟨hwrite, -⟩ | ⟨_, front, back, rfl, hwrite, hrest⟩
  · rw [writesTo_write hwrite]
    simp only [ofMinutes_eq_zero_iff]
  · have hquiet : writesTo (Key.decision r) back = [] :=
      writesTo_of_asks ((asks_dispatchActions (by simp) ruling r).bind fun _ =>
        Dialogue.asks_pure _) hrest
    rw [writesTo_append, hquiet, List.append_nil, writesTo_write hwrite]
    simp only [ofMinutes_eq_zero_iff]

/-- Nothing is written before the candidates are loaded. -/
theorem writesTo_opening (key : String) (read : Timed (Except CacheError (Option String)))
    (now : Instant) : writesTo key (openingOf r read now) = [] :=
  rfl

/-- A request that was decided was decided from the candidates that its transcript
tells, and its verdict was written. -/
theorem decided_of_unserved {v : Verdict} (h : Held (Engine.evaluate c r) transcript (some (.ok v)))
    (hunserved : servedIn? c r transcript = none) :
    ∃ now, transcript.findSome? Exchange.time? = some now ∧
      v = (rule c r (candidatesIn c r.tenant transcript) now).verdict ∧
      writesTo (Key.decision r) transcript =
        if DecisionCache.lifetime c v = 0 then []
        else [(v.toText, Time.ofMinutes (DecisionCache.lifetime c v).toNat)] := by
  cases way_of_held h with
  | early hasked hserved =>
      rw [hserved v rfl] at hunserved
      cases hunserved
  | unloaded read now hread hloading hfailed => exact absurd rfl (hfailed v)
  | decided read now hread hloading hconclude =>
      have hverdict := (dispatched_conclude hconclude).2 _ rfl
      have hother := Key.decision_ne_candidates r r.tenant
      rw [candidatesIn_of_opening (opening_of_read now hread) hloading hconclude]
      refine ⟨now, rfl, Except.ok.inj hverdict, ?_⟩
      rw [Except.ok.inj hverdict, writesTo_append, writesTo_append, writesTo_conclude hconclude,
        writesTo_of_asks (asks_candidates (by simp) (by simp [hother.symm]) (by simp) (by simp) c
          now) hloading]
      rfl

/-- Where candidates were loaded, all that was written of them is what the store
found, and all of it was written if they came from the store. -/
theorem candidateWrites_of_held (h : Held (Engine.evaluate c r) transcript result) :
    (writesTo (Key.candidates r.tenant) transcript = [] ∧
        (servedIn? c r transcript = none → listedIn? c r.tenant transcript = none →
          ∀ v, result ≠ some (.ok v))) ∨
      ∃ now, transcript.findSome? Exchange.time? = some now ∧
        writesTo (Key.candidates r.tenant) transcript =
          candidateWrites c (Policy.distinct (findsIn transcript)) now := by
  have hother := Key.decision_ne_candidates r r.tenant
  cases way_of_held h with
  | early hasked hserved =>
      refine .inl ⟨?_, ?_⟩
      · apply List.filterMap_eq_nil_iff.mpr
        rintro ⟨question, answer⟩ he
        rcases hasked _ he with rfl | rfl <;> rfl
      · intro hunserved _ v hresult
        rw [hserved v hresult] at hunserved
        cases hunserved
  | unloaded read now hread hloading hfailed =>
      rw [writesTo_append, writesTo_opening, List.nil_append]
      rcases writesTo_candidates hloading with ⟨hnone, -⟩ | hwrites
      · exact .inl ⟨hnone, fun _ _ => hfailed⟩
      · exact .inr ⟨now, rfl, hwrites⟩
  | @decided read now loading conclusion policies hread hloading hconclude =>
      have hfinds := findsIn_of_asks (asks_conclude (by simp) (by simp) c _) hconclude
      have hwrites : writesTo (Key.candidates r.tenant) conclusion = [] :=
        writesTo_of_asks (asks_conclude (by simp [hother]) (by simp) c _) hconclude
      have hanswers : answersFor (Key.candidates r.tenant) conclusion = [] :=
        answersFor_of_asks (asks_conclude (by simp) (by simp) c _) hconclude
      have hunread := (opening_of_read (c := c) (r := r) now hread).unread
      rw [writesTo_append, writesTo_opening, List.nil_append, writesTo_append, hwrites,
        List.append_nil]
      rcases writesTo_candidates hloading with ⟨hnone, hlisted⟩ | hwritten
      · refine .inl ⟨hnone, fun _ hunlisted => ?_⟩
        rw [listedIn?, answersFor_append, hunread, List.nil_append, answersFor_append,
          hanswers, List.append_nil] at hunlisted
        exact absurd rfl (hlisted hunlisted _)
      · refine .inr ⟨now, rfl, ?_⟩
        rw [hwritten, findsIn_append, findsIn_append, hfinds, List.append_nil]
        rfl

end Evaluation

end DecisionPoint
