import DecisionPoint.Dispatch
import DecisionPoint.Policy.Basic

/-!
What the engine asks of its collaborators. The engine itself keeps nothing: it
is a tree of questions, each with one branch for every answer, and so says in
advance how it goes on whatever the cache, the store and the clock come up
with. Answers that take time say how long, in nanoseconds.

A dialogue is held with collaborators given as a function from question and
state to answer and new state. `Dialogue.run` holds it to its end and keeps a
transcript.
-/

namespace DecisionPoint

open Time (Instant)

structure Timed (α : Type) where
  outcome : α
  elapsed : Nat
deriving Repr

/-- A question to the cache, the store, the clock or the dispatcher. -/
inductive Question where
  /-- The value kept under a key. -/
  | cacheGet (key : String)
  /-- Keep a value under a key for a span. -/
  | cacheSet (key value : String) (ttl : Nat)
  /-- Remove a key. -/
  | cacheDelete (key : String)
  /-- Remove all keys that begin with a text. -/
  | cacheDeleteAll (start : String)
  /-- The policies of no tenant. -/
  | findGlobal (now : Instant)
  /-- The policies of a tenant that may decide something. -/
  | findActive (tenant : String) (now : Instant)
  /-- The present instant. -/
  | now
  /-- Execute actions in their order of priority. -/
  | dispatch (actions : List Action) (context : ActionContext)
deriving Repr

def Question.Answer : Question → Type
  | .cacheGet _ => Timed (Except CacheError (Option String))
  | .cacheSet _ _ _ => Except CacheError Unit
  | .cacheDelete _ => Except CacheError Unit
  | .cacheDeleteAll _ => Except CacheError Nat
  | .findGlobal _ => Timed (Except StoreError (List Policy))
  | .findActive _ _ => Timed (Except StoreError (List Policy))
  | .now => Instant
  | .dispatch _ _ => Unit

/-- A computation that asks questions on its way to a result. -/
inductive Dialogue (α : Type) where
  | done (result : α)
  | ask (question : Question) (next : question.Answer → Dialogue α)

/-- A question with the answer it got, if it got one. -/
structure Exchange where
  question : Question
  answer : Option question.Answer

/-- Collaborators with a state of type `σ`. No answer means that one of them
broke down over the question. -/
abbrev Collaborators (σ : Type) :=
  (question : Question) → σ → Option question.Answer × σ

/-- How a dialogue went: its result unless a collaborator broke down, what was
asked and answered, and the state of the collaborators after it. -/
structure Course (α σ : Type) where
  result : Option α
  transcript : List Exchange
  state : σ

namespace Dialogue

def bind (d : Dialogue α) (f : α → Dialogue β) : Dialogue β :=
  match d with
  | .done result => f result
  | .ask question next => .ask question fun answer => (next answer).bind f

instance : Monad Dialogue where
  pure := .done
  bind := Dialogue.bind

def query (question : Question) : Dialogue question.Answer :=
  .ask question .done

def run (collaborators : Collaborators σ) : Dialogue α → σ → Course α σ
  | .done result, s => ⟨some result, [], s⟩
  | .ask question next, s =>
    match collaborators question s with
    | (none, s) => ⟨none, [⟨question, none⟩], s⟩
    | (some answer, s) =>
      let course := run collaborators (next answer) s
      { course with transcript := ⟨question, some answer⟩ :: course.transcript }

end Dialogue

end DecisionPoint
