import DecisionPoint.Proofs.Course

/-!
Transcripts of dialogues, whoever the collaborators are. A transcript holds all
the answers that were given, so it settles how a dialogue went; and a dialogue
that goes on with the result of another has their transcripts one after the
other.
-/

namespace DecisionPoint.Dialogue

/-- A way in which a dialogue may be held: the exchanges, and the result unless
a collaborator broke down over the last question. -/
inductive Held : Dialogue α → List Exchange → Option α → Prop
  | done (result : α) : Held (.done result) [] (some result)
  | broken (question : Question) (next : question.Answer → Dialogue α) :
      Held (.ask question next) [⟨question, none⟩] none
  | answered (question : Question) (next : question.Answer → Dialogue α)
      (answer : question.Answer) {transcript : List Exchange} {result : Option α}
      (hrest : Held (next answer) transcript result) :
      Held (.ask question next) (⟨question, some answer⟩ :: transcript) result

/-- Holding a dialogue with collaborators is one of the ways it may be held. -/
theorem held_run (collaborators : Collaborators σ) (d : Dialogue α) (s : σ) :
    Held d (d.run collaborators s).transcript (d.run collaborators s).result := by
  induction d generalizing s with
  | done result => exact .done result
  | ask question next ih =>
      rw [run]
      cases collaborators question s with
      | mk answer after =>
        cases answer with
        | none => exact .broken question next
        | some answer => exact .answered question next answer (ih answer after)

namespace Held

variable {transcript : List Exchange}

theorem of_pure {a : α} {result : Option α} (h : Held (pure a) transcript result) :
    transcript = [] ∧ result = some a := by
  cases h
  exact ⟨rfl, rfl⟩

theorem of_query {question : Question} {result : Option question.Answer}
    (h : Held (query question) transcript result) : transcript = [⟨question, result⟩] := by
  cases h with
  | broken => rfl
  | answered _ _ answer hrest =>
      cases hrest
      rfl

/-- A dialogue that goes on with a result either breaks down before that, or
falls into the part before it and the part behind it. -/
theorem of_bind {x : Dialogue α} {f : α → Dialogue β} {result : Option β}
    (h : Held (x >>= f) transcript result) :
    (Held x transcript none ∧ result = none) ∨
      ∃ a front back, transcript = front ++ back ∧ Held x front (some a) ∧
        Held (f a) back result := by
  induction x generalizing transcript with
  | done a => exact .inr ⟨a, [], transcript, rfl, .done a, h⟩
  | ask question next ih =>
      change Held (.ask question fun answer => (next answer).bind f) transcript result at h
      cases h with
      | broken => exact .inl ⟨.broken question next, rfl⟩
      | answered _ _ answer hrest =>
          rcases ih answer hrest with ⟨hbroken, rfl⟩ | ⟨a, front, back, rfl, hfront, hback⟩
          · exact .inl ⟨.answered question next answer hbroken, rfl⟩
          · exact .inr ⟨a, _, back, rfl, .answered question next answer hfront, hback⟩

/-- Where a dialogue that goes on comes to a result, so does its first part. -/
theorem of_bind_some {x : Dialogue α} {f : α → Dialogue β} {b : β}
    (h : Held (x >>= f) transcript (some b)) :
    ∃ a front back, transcript = front ++ back ∧ Held x front (some a) ∧
      Held (f a) back (some b) := by
  rcases h.of_bind with ⟨-, hnone⟩ | hparts
  · cases hnone
  · exact hparts

/-- A single question with something made of its answer. -/
theorem of_asked {question : Question} {f : question.Answer → α} {result : Option α}
    (h : Held (do return f (← query question)) transcript result) :
    (transcript = [⟨question, none⟩] ∧ result = none) ∨
      ∃ answer, transcript = [⟨question, some answer⟩] ∧ result = some (f answer) := by
  rcases h.of_bind with ⟨hquery, rfl⟩ | ⟨answer, front, back, rfl, hquery, hdone⟩
  · exact .inl ⟨hquery.of_query, rfl⟩
  · obtain ⟨rfl, rfl⟩ := hdone.of_pure
    rw [hquery.of_query]
    exact .inr ⟨answer, rfl, rfl⟩

/-- A dialogue of which every question was answered comes to a result. -/
theorem result_isSome {x : Dialogue α} {result : Option α} (h : Held x transcript result)
    (hanswered : ∀ e ∈ transcript, e.answer.isSome = true) : result.isSome = true := by
  induction h with
  | done result => rfl
  | broken question next => cases hanswered _ List.mem_cons_self
  | answered question next answer hrest ih =>
      exact ih fun e he => hanswered e (List.mem_cons_of_mem _ he)

end Held

end DecisionPoint.Dialogue
