import DecisionPoint.Proofs.Cache.Key
import DecisionPoint.Proofs.Engine
import DecisionPoint.Proofs.Questions
import DecisionPoint.Session

/-!
Runs of a deployment: events one after the other, and time that passes for the
cache and the clock alike. Only evaluations bring entries into the cache, so
what a run leaves there was put there by one of its evaluations; and outside
the passing of time the clock stands still while the cache may only age.
-/

namespace DecisionPoint

open Time (Instant)

/-! ## Dialogues that write nothing -/

namespace Dialogue

/-- Nothing is ever kept in the cache, whatever the answers. -/
inductive KeepsOut : Dialogue α → Prop
  | done (result : α) : KeepsOut (.done result)
  | ask (question : Question) (next : question.Answer → Dialogue α)
      (hquestion : ∀ key value ttl, question ≠ .cacheSet key value ttl)
      (hnext : ∀ answer, KeepsOut (next answer)) : KeepsOut (.ask question next)

theorem KeepsOut.of_asks {x : Dialogue α}
    (h : x.Asks fun question => ∀ key value ttl, question ≠ .cacheSet key value ttl) :
    KeepsOut x := by
  induction x with
  | done result => exact .done result
  | ask question next ih =>
      obtain ⟨hquestion, hnext⟩ := h.of_ask
      exact .ask question next hquestion fun answer => ih answer (hnext answer)

theorem KeepsOut.asks {x : Dialogue α} (h : KeepsOut x) :
    x.Asks fun question => ∀ key value ttl, question ≠ .cacheSet key value ttl := by
  induction h with
  | done result => exact asks_pure result
  | ask question next hquestion hnext ih => exact (asks_query hquestion).bind ih

theorem keepsOut_evictAllUnder (start : String) : KeepsOut (DecisionCache.evictAllUnder start) :=
  .of_asks (asks_evictAllUnder (by simp))

theorem keepsOut_evictAll : KeepsOut DecisionCache.evictAll :=
  .of_asks (asks_evictAll (by simp))

end Dialogue

open Dialogue (KeepsOut keepsOut_evictAllUnder keepsOut_evictAll)

namespace Deployment

/-- A question that keeps nothing brings no entry into the cache. -/
theorem collaborators_keepsOut (d : Deployment) {question : Question}
    (h : ∀ key value ttl, question ≠ .cacheSet key value ttl) :
    SameWorld d (collaborators question d).2 ∧
      ∀ e ∈ (collaborators question d).2.cache.entries, e ∈ d.cache.entries := by
  cases question with
  | cacheSet key value ttl => exact absurd rfl (h key value ttl)
  | cacheGet key =>
      have hlooked : (collaborators (.cacheGet key) d).2 = d.looked key := d.cacheGet_state key
      rw [hlooked]
      exact ⟨d.sameWorld_looked key, fun _ => mem_of_mem_looked⟩
  | cacheDelete key =>
      simp only [collaborators]
      split
      · exact ⟨SameWorld.refl d, fun _ he => he⟩
      · exact ⟨⟨rfl, rfl, rfl, rfl, fun _ => rfl, rfl, rfl, Nat.le_refl _, rfl⟩,
          fun _ => LruCache.mem_of_mem_erase⟩
  | cacheDeleteAll start =>
      simp only [collaborators]
      split
      · exact ⟨SameWorld.refl d, fun _ he => he⟩
      · refine ⟨⟨rfl, rfl, rfl, rfl, fun _ => rfl, rfl, rfl, Nat.le_refl _,
          LruCache.capacity_erasePattern _ _⟩, ?_⟩
        intro e he
        exact (LruCache.mem_of_mem_erasePattern.mp he).1
  | findGlobal now =>
      obtain ⟨hworld, hcache, -⟩ :=
        find_cases d d.globalFault Backend.findGlobal d.backend.uncounted_findGlobal
      refine ⟨hworld, ?_⟩
      intro e he
      rw [← hcache]
      exact he
  | findActive tenant now =>
      obtain ⟨hworld, hcache, -⟩ :=
        find_cases d d.tenantFault (Backend.findActive tenant)
          (d.backend.uncounted_findActive tenant)
      refine ⟨hworld, ?_⟩
      intro e he
      rw [← hcache]
      exact he
  | now => exact ⟨d.sameWorld_ticked, fun _ he => he⟩
  | dispatch actions context =>
      exact ⟨⟨rfl, rfl, rfl, rfl, fun _ => rfl, rfl, rfl, Nat.le_refl _, rfl⟩, fun _ he => he⟩

/-- A dialogue that keeps nothing adds no entry. -/
theorem hold_keepsOut {x : Dialogue α} (h : x.KeepsOut) (d : Deployment) :
    SameWorld d (d.hold x).state ∧ ∀ e ∈ (d.hold x).state.cache.entries, e ∈ d.cache.entries := by
  refine h.asks.run_preserves (P := fun after => SameWorld d after ∧
    ∀ e ∈ after.cache.entries, e ∈ d.cache.entries) ?_ ⟨SameWorld.refl d, fun _ he => he⟩
  rintro question after hquestion ⟨hworld, hentries⟩
  obtain ⟨hworld', hentries'⟩ := after.collaborators_keepsOut hquestion
  exact ⟨hworld.trans hworld', fun e he => hentries e (hentries' e he)⟩

/-- No answer changes more of the world than the cache, the count of queries and the
actions. -/
theorem collaborators_sameWorld (d : Deployment) (question : Question) :
    SameWorld d (collaborators question d).2 := by
  cases question with
  | cacheSet key value ttl =>
      simp only [collaborators]
      split
      · exact SameWorld.refl d
      · exact ⟨rfl, rfl, rfl, rfl, fun _ => rfl, rfl, rfl, Nat.le_refl _, rfl⟩
  | _ => exact (d.collaborators_keepsOut fun _ _ _ h => by cases h).1

/-- No dialogue changes the world around the cache. -/
theorem hold_sameWorld (x : Dialogue α) (d : Deployment) : SameWorld d (d.hold x).state :=
  Dialogue.run_preserves (fun question after h => h.trans (after.collaborators_sameWorld question))
    x (SameWorld.refl d)

/-! ## Events -/

/-- Settings, clock and cache time go on from one state to another. -/
structure Progress (d after : Deployment) : Prop where
  config : after.config = d.config
  tick : after.tick = d.tick
  clock : d.tick = 0 → after.clock = d.clock
  elapsed : d.elapsed ≤ after.elapsed

theorem Progress.refl (d : Deployment) : Progress d d :=
  ⟨rfl, rfl, fun _ => rfl, Nat.le_refl _⟩

theorem SameWorld.progress {d after : Deployment} (h : SameWorld d after) : Progress d after :=
  ⟨h.config, h.tick, h.clock, h.elapsed⟩

end Deployment

/-- Whether an event leaves the writing of the cache to the engine and the
clock to the passing of time. -/
def Event.isOrdinary : Event → Bool
  | .cache (.set _ _ _) => false
  | .record (.putDecision _ _) => false
  | .record (.putCandidates _ _ _) => false
  | .setClock _ => false
  | .advanceClock _ => false
  | _ => true

def Event.sparesCache : Event → Bool
  | .cache (.set _ _ _) => false
  | .record (.putDecision _ _) => false
  | .record (.putCandidates _ _ _) => false
  | _ => true

theorem Event.sparesCache_of_isOrdinary {e : Event} (h : e.isOrdinary = true) :
    e.sparesCache = true := by
  cases e with
  | cache e =>
      cases e with
      | set key value ttl => cases h
      | _ => rfl
  | record e =>
      cases e with
      | putDecision r v => cases h
      | putCandidates tenant policies cap => cases h
      | _ => rfl
  | _ => rfl

theorem Event.sparesCache_cases {e : Event} (h : e.sparesCache = true) :
    e.isOrdinary = true ∨ (∃ now, e = .setClock now) ∨ ∃ span, e = .advanceClock span := by
  cases e with
  | setClock now => exact .inr (.inl ⟨now, rfl⟩)
  | advanceClock span => exact .inr (.inr ⟨span, rfl⟩)
  | cache e =>
      cases e with
      | set key value ttl => cases h
      | _ => exact .inl rfl
  | record e =>
      cases e with
      | putDecision r v => cases h
      | putCandidates tenant policies cap => cases h
      | _ => exact .inl rfl
  | _ => exact .inl rfl

def Event.isEvaluation : Event → Bool
  | .evaluate _ => true
  | .evaluateText _ => true
  | .evaluateAsync _ _ => true
  | .evaluateTextAsync _ _ => true
  | _ => false

def Event.request? : Event → Option Request
  | .evaluate r => some r
  | .evaluateText s => (Request.ofText s).toOption
  | .evaluateAsync r _ => some r
  | .evaluateTextAsync s _ => (Request.ofText s).toOption
  | _ => none

theorem Event.isEvaluation_of_request? {e : Event} {r : Request} (h : e.request? = some r) :
    e.isEvaluation = true := by
  cases e with
  | evaluate _ => rfl
  | evaluateText _ => rfl
  | evaluateAsync _ _ => rfl
  | evaluateTextAsync _ _ => rfl
  | _ => cases h

namespace Deployment

theorem evaluation_invalid (d : Deployment) {r : Request} {cause : RequestError}
    (h : r.defect? = some cause) :
    d.evaluation r = ⟨some (.error (.invalidRequest cause)), [], d⟩ := by
  simp only [evaluation, Engine.evaluate, h]
  rfl

theorem ofText_of_toOption {s : String} {r : Request}
    (h : (Request.ofText s).toOption = some r) : Request.ofText s = .ok r := by
  cases hread : Request.ofText s with
  | error e => rw [hread] at h; cases h
  | ok found =>
      rw [hread] at h
      cases h
      rfl

/-- An event that has a fit request evaluated leaves the state that the
evaluation leaves. -/
theorem happen_request {d : Deployment} {e : Event} {r : Request} (hrequest : e.request? = some r)
    (hfit : r.defect? = none) :
    (d.happen e).state = (d.evaluation r).state ∧
      (d.happen e).transcript = (d.evaluation r).transcript := by
  cases e with
  | evaluate _ =>
      cases hrequest
      simp only [happen, answer, evaluation, and_self]
  | evaluateText s =>
      have hread := ofText_of_toOption hrequest
      simp only [happen, answer, Engine.evaluateText, hread]
      exact ⟨rfl, rfl⟩
  | evaluateAsync _ deadline =>
      cases hrequest
      simp only [happen, evaluateAsync, hfit]
      exact ⟨rfl, rfl⟩
  | evaluateTextAsync s deadline =>
      have hread := ofText_of_toOption hrequest
      simp only [happen, evaluateTextAsync, hread, evaluateAsync, hfit]
      exact ⟨rfl, rfl⟩
  | _ => cases hrequest

theorem progress_keepsOut {x : Dialogue α} (h : x.KeepsOut) (d : Deployment) :
    Progress d (d.hold x).state ∧ ∀ e ∈ (d.hold x).state.cache.entries, e ∈ d.cache.entries := by
  obtain ⟨hworld, hentries⟩ := hold_keepsOut h d
  exact ⟨hworld.progress, hentries⟩

theorem evaluation_unfit {d : Deployment} {r : Request} (h : r.defect? ≠ none) :
    (d.evaluation r).state = d := by
  obtain ⟨cause, hcause⟩ := Option.ne_none_iff_exists'.mp h
  rw [evaluation_invalid d hcause]

theorem evaluateAsync_unfit {d : Deployment} {r : Request} (h : r.defect? ≠ none)
    (deadline : Option Nat) : (d.evaluateAsync deadline r).state = d := by
  obtain ⟨cause, hcause⟩ := Option.ne_none_iff_exists'.mp h
  rw [evaluateAsync, hcause]

/-- The evaluation of what is no fit request leaves a deployment as it is. -/
theorem happen_unfit {d : Deployment} {e : Event} (he : e.isEvaluation = true)
    (hrequest : ∀ r, e.request? = some r → r.defect? ≠ none) : (d.happen e).state = d := by
  cases e with
  | evaluate r =>
      simp only [happen, answer]
      exact evaluation_unfit (hrequest r rfl)
  | evaluateText s =>
      cases hread : Request.ofText s with
      | error e =>
          simp only [happen, answer, Engine.evaluateText, hread]
          rfl
      | ok r =>
          simp only [happen, answer, Engine.evaluateText, hread]
          exact evaluation_unfit (hrequest r (by rw [Event.request?, hread]; rfl))
  | evaluateAsync r deadline =>
      simp only [happen]
      exact evaluateAsync_unfit (hrequest r rfl) deadline
  | evaluateTextAsync s deadline =>
      cases hread : Request.ofText s with
      | error e => simp only [happen, evaluateTextAsync, hread]
      | ok r =>
          simp only [happen, evaluateTextAsync, hread]
          exact evaluateAsync_unfit (hrequest r (by rw [Event.request?, hread]; rfl)) deadline
  | _ => cases he

theorem evaluateAsync_state (d : Deployment) (deadline : Option Nat) (r : Request) :
    (d.evaluateAsync deadline r).state = (d.hold (Engine.evaluate d.config r)).state := by
  by_cases hfit : r.defect? = none
  · rw [evaluateAsync, hfit]
  · rw [evaluateAsync_unfit hfit]
    exact (evaluation_unfit hfit).symm

theorem answer_state (d : Deployment) (x : Dialogue α) (reply : α → Reply) :
    (d.answer x reply).state = (d.hold x).state :=
  rfl

/-- Whether a course leaves a state that some dialogue leaves. -/
def LeftByDialogue (d after : Deployment) : Prop :=
  ∃ (α : Type) (x : Dialogue α), after = (d.hold x).state

theorem LeftByDialogue.sameWorld {d after : Deployment} (h : d.LeftByDialogue after) :
    SameWorld d after := by
  obtain ⟨α, x, rfl⟩ := h
  exact hold_sameWorld x d

theorem leftByDialogue_answer (d : Deployment) (x : Dialogue α) (reply : α → Reply) :
    d.LeftByDialogue (d.answer x reply).state :=
  ⟨α, x, d.answer_state x reply⟩

theorem leftByDialogue_self (d : Deployment) : d.LeftByDialogue d :=
  ⟨Unit, .done (), rfl⟩

theorem leftByDialogue_evaluateAsync (d : Deployment) (deadline : Option Nat) (r : Request) :
    d.LeftByDialogue (d.evaluateAsync deadline r).state :=
  ⟨_, Engine.evaluate d.config r, d.evaluateAsync_state deadline r⟩

theorem leftByDialogue_evaluateTextAsync (d : Deployment) (deadline : Option Nat) (s : String) :
    d.LeftByDialogue (d.evaluateTextAsync deadline s).state := by
  rw [evaluateTextAsync]
  cases Request.ofText s with
  | error e => exact d.leftByDialogue_self
  | ok r => exact d.leftByDialogue_evaluateAsync deadline r

theorem leftByDialogue_recordEvent (d : Deployment) (e : RecordEvent) :
    d.LeftByDialogue (d.recordEvent e).state := by
  cases e with
  | defaultTtl => exact d.leftByDialogue_self
  | _ => exact d.leftByDialogue_answer _ _

/-- What is done to the cache directly leaves all else as it is. -/
theorem happen_cache (d : Deployment) (c : CacheEvent) :
    ∃ cache, (d.happen (.cache c)).state = { d with cache } := by
  cases c <;> exact ⟨_, rfl⟩

/-- An event holds a dialogue, or does something to the cache directly, or leaves
the cache and the settings alone, and then what is stored too unless it changes a
policy of the store. -/
theorem happen_cases (d : Deployment) (e : Event) :
    d.LeftByDialogue (d.happen e).state ∨ (∃ c, e = .cache c) ∨
      ((d.happen e).state.cache = d.cache ∧ (d.happen e).state.config = d.config ∧
        ((d.happen e).state.backend = d.backend ∨ (∃ p, e = .upsert p) ∨
          ∃ key, e = .remove key)) := by
  cases e with
  | cache e => exact .inr (.inl ⟨e, rfl⟩)
  | record e => exact .inl (d.leftByDialogue_recordEvent e)
  | evaluate r => exact .inl (d.leftByDialogue_answer _ _)
  | evaluateText s => exact .inl (d.leftByDialogue_answer _ _)
  | evaluateAsync r deadline =>
      left
      simp only [happen]
      exact d.leftByDialogue_evaluateAsync deadline r
  | evaluateTextAsync s deadline => exact .inl (d.leftByDialogue_evaluateTextAsync deadline s)
  | policyChanged p => exact .inl (d.leftByDialogue_answer _ _)
  | upsert p => exact .inr (.inr ⟨rfl, rfl, .inr (.inl ⟨p, rfl⟩)⟩)
  | remove key => exact .inr (.inr ⟨rfl, rfl, .inr (.inr ⟨key, rfl⟩)⟩)
  | _ => exact .inr (.inr ⟨rfl, rfl, .inl rfl⟩)

/-- An ordinary event that evaluates no fit request adds no entry. -/
theorem happen_ordinary {d : Deployment} {e : Event} (h : e.isOrdinary = true)
    (hrequest : ∀ r, e.request? = some r → r.defect? ≠ none) :
    Progress d (d.happen e).state ∧
      ∀ x ∈ (d.happen e).state.cache.entries, x ∈ d.cache.entries := by
  have hsame : ∀ after : Deployment, after = d →
      Progress d after ∧ ∀ x ∈ after.cache.entries, x ∈ d.cache.entries := by
    rintro after rfl
    exact ⟨Progress.refl _, fun _ hx => hx⟩
  cases e with
  | cache e =>
      refine ⟨?_, ?_⟩
      · obtain ⟨cache, hstate⟩ := d.happen_cache e
        rw [hstate]
        exact ⟨rfl, rfl, fun _ => rfl, Nat.le_refl _⟩
      · cases e with
        | set key value ttl => cases h
        | get key => exact fun _ => LruCache.mem_of_mem_get
        | delete key => exact fun _ => LruCache.mem_of_mem_erase
        | deletePattern pattern =>
            exact fun _ hx => (LruCache.mem_of_mem_erasePattern.mp hx).1
        | clear => exact fun _ hx => by cases hx
        | _ => exact fun _ hx => hx
  | record e =>
      cases e with
      | defaultTtl => exact hsame d rfl
      | getDecision r => exact progress_keepsOut (.of_asks (asks_getDecision (by simp) _)) d
      | putDecision r v => cases h
      | getCandidates tenant =>
          exact progress_keepsOut (.of_asks (asks_getCandidates (by simp) _)) d
      | putCandidates tenant policies cap => cases h
      | evictDecision r => exact progress_keepsOut (.of_asks (asks_evictDecision (by simp))) d
      | evictPolicy resourceType action =>
          exact progress_keepsOut (keepsOut_evictAllUnder _) d
      | evictAll => exact progress_keepsOut keepsOut_evictAll d
  | policyChanged p => exact progress_keepsOut keepsOut_evictAll d
  | evaluate r => exact hsame _ (happen_unfit rfl hrequest)
  | evaluateText s => exact hsame _ (happen_unfit rfl hrequest)
  | evaluateAsync r deadline => exact hsame _ (happen_unfit rfl hrequest)
  | evaluateTextAsync s deadline => exact hsame _ (happen_unfit rfl hrequest)
  | setClock now => cases h
  | advanceClock span => cases h
  | wait span => exact ⟨⟨rfl, rfl, fun _ => rfl, Nat.le_add_right _ _⟩, fun _ hx => hx⟩
  | _ => exact ⟨⟨rfl, rfl, fun _ => rfl, Nat.le_refl _⟩, fun _ hx => hx⟩

theorem mem_place {p q : Policy} {policies : List Policy}
    (h : q ∈ PolicyStore.place p policies) : q = p ∨ q ∈ policies := by
  induction policies with
  | nil => exact .inl (List.mem_singleton.mp h)
  | cons first rest ih =>
      rw [PolicyStore.place] at h
      split at h
      · rcases List.mem_cons.mp h with rfl | hrest
        · exact .inl rfl
        · exact .inr (List.mem_cons_of_mem _ hrest)
      · rcases List.mem_cons.mp h with rfl | hrest
        · exact .inr List.mem_cons_self
        · exact (ih hrest).imp id (List.mem_cons_of_mem _)

/-- No event brings a policy behind the store but the one it stores. -/
theorem happen_policies {d : Deployment} {e : Event} {p : Policy}
    (hp : p ∈ (d.happen e).state.backend.policies) :
    p ∈ d.backend.policies ∨ e = .upsert p := by
  rcases d.happen_cases e with hheld | ⟨c, rfl⟩ | ⟨-, -, hsame | ⟨q, rfl⟩ | ⟨key, rfl⟩⟩
  · rw [hheld.sameWorld.policies] at hp
    exact .inl hp
  · obtain ⟨cache, hstate⟩ := d.happen_cache c
    rw [hstate] at hp
    exact .inl hp
  · rw [hsame] at hp
    exact .inl hp
  · cases hbackend : d.backend with
    | fixed global tenants =>
        simp only [happen, quietly, hbackend] at hp
        exact .inl hp
    | memory store =>
        simp only [happen, quietly, hbackend] at hp
        rcases mem_place hp with rfl | hold
        · exact .inr rfl
        · exact .inl hold
  · left
    cases hbackend : d.backend with
    | fixed global tenants =>
        simp only [happen, quietly, hbackend] at hp
        exact hp
    | memory store =>
        simp only [happen, quietly, hbackend] at hp
        exact (List.mem_filter.mp hp).1

end Deployment

/-! ## Runs -/

/-- A part of a history with one more at its end is that one or an earlier one. -/
theorem snoc_eq_iff {xs front back : List α} {last x : α} :
    xs ++ [last] = front ++ x :: back ↔
      (xs = front ∧ last = x ∧ back = []) ∨
        ∃ rest, xs = front ++ x :: rest ∧ back = rest ++ [last] := by
  constructor
  · intro h
    rcases List.eq_nil_or_concat back with rfl | ⟨rest, final, rfl⟩
    · obtain ⟨hfront, hlast⟩ := List.append_inj' h rfl
      exact .inl ⟨hfront, List.head_eq_of_cons_eq hlast, rfl⟩
    · rw [List.concat_eq_append] at *
      rw [← List.cons_append, ← List.append_assoc] at h
      obtain ⟨hfront, hlast⟩ := List.append_inj' h rfl
      exact .inr ⟨rest, hfront, by rw [List.head_eq_of_cons_eq hlast]⟩
  · rintro (⟨rfl, rfl, rfl⟩ | ⟨rest, rfl, rfl⟩)
    · rfl
    · rw [List.append_assoc, List.cons_append]

/-- What a run is made of: an event, or a span of time that passes for the
cache and the clock alike. -/
inductive Move where
  | event (e : Event)
  | pass (span : Nat)

namespace Move

def events : Move → List Event
  | event e => [e]
  | pass span => [.wait span, .advanceClock span]

def request? : Move → Option Request
  | event e => e.request?
  | pass _ => none

def isOrdinary : Move → Bool
  | event e => e.isOrdinary
  | pass _ => true

def sparesCache : Move → Bool
  | .event e => e.sparesCache
  | .pass _ => true

theorem sparesCache_of_isOrdinary {m : Move} (h : m.isOrdinary = true) :
    m.sparesCache = true := by
  cases m with
  | event e => exact Event.sparesCache_of_isOrdinary h
  | pass span => rfl

end Move

namespace Deployment

def after (executor : Executor) (d : Deployment) (es : List Event) : Deployment :=
  es.foldl (fun d e => (d.step executor e).state) d

/-- A session goes on from the state that its first part leaves. -/
theorem play_append (executor : Executor) (d : Deployment) (es fs : List Event) :
    d.play executor (es ++ fs) =
      d.play executor es ++ (d.after executor es).play executor fs := by
  induction es generalizing d with
  | nil => rfl
  | cons e es ih =>
      simp only [List.cons_append, play, after, List.foldl_cons]
      rw [ih]
      rfl

def run (executor : Executor) (d : Deployment) (ms : List Move) : Deployment :=
  ms.foldl (fun d m => d.after executor m.events) d

theorem run_nil (executor : Executor) (d : Deployment) : d.run executor [] = d :=
  rfl

theorem run_cons (executor : Executor) (d : Deployment) (m : Move) (ms : List Move) :
    d.run executor (m :: ms) = (d.after executor m.events).run executor ms :=
  rfl

theorem run_append (executor : Executor) (d : Deployment) (ms ns : List Move) :
    d.run executor (ms ++ ns) = (d.run executor ms).run executor ns :=
  List.foldl_append

/-- What every move of a run preserves holds after it. -/
theorem run_induction {motive : Deployment → Prop} (executor : Executor) {d : Deployment}
    {ms : List Move} (hstart : motive d)
    (hstep : ∀ d, ∀ m ∈ ms, motive d → motive (d.after executor m.events)) :
    motive (d.run executor ms) :=
  List.foldlRecOn ms _ hstart fun d hd m hm => hstep d m hm hd

/-! ## Time in a run -/

/-- The clock reads whole steps of time, and stands still while it is read. -/
structure IsTimed (d : Deployment) : Prop where
  tick : d.tick = 0
  plain : d.clock.isPlain = true

/-- A state that a run has come to: the clock has not gone back, and the cache
has aged by as much at least. -/
structure Later (d later : Deployment) : Prop where
  config : later.config = d.config
  clock : d.clock.count ≤ later.clock.count
  age : later.clock.count - d.clock.count ≤ (later.elapsed : Int) - d.elapsed

theorem Later.refl (d : Deployment) : Later d d :=
  ⟨rfl, Int.le_refl _, by omega⟩

theorem Later.trans {a b c : Deployment} (hab : Later a b) (hbc : Later b c) : Later a c where
  config := by rw [hbc.config, hab.config]
  clock := Int.le_trans hab.clock hbc.clock
  age := by
    have h := hab.age
    have h' := hbc.age
    omega

theorem Progress.later {d later : Deployment} (h : Progress d later) (htick : d.tick = 0) :
    Later d later where
  config := h.config
  clock := Int.le_of_eq (by rw [h.clock htick])
  age := by
    have := h.elapsed
    rw [h.clock htick]
    omega

theorem Progress.isTimed {d later : Deployment} (h : Progress d later) (htimed : d.IsTimed) :
    later.IsTimed where
  tick := by rw [h.tick, htimed.tick]
  plain := by rw [h.clock htimed.tick, htimed.plain]

/-! ## What a move writes -/

/-- What is kept when a request is evaluated and its answer computed. -/
inductive Writes (d : Deployment) (r : Request) : CacheEntry → Prop
  | decision (policies : List Policy) (hkept : d.kept? r = none)
      (hloaded : d.loaded? r = some (.ok policies))
      (hsource : Source d r.tenant d.clock (d.evaluation r).transcript policies)
      (hresult : (d.evaluation r).result =
        some (.ok (rule d.config r policies d.clock).verdict)) :
      Writes d r (decisionEntry d.config r (rule d.config r policies d.clock).verdict
        (d.evaluation r).state.elapsed)
  | candidates
      (hqueried : Queried (d.evaluation r).transcript r.tenant d.clock
        (d.backend.found r.tenant)) :
      Writes d r (candidateEntry d.config r.tenant
        (Policy.distinct (d.backend.found r.tenant)) d.clock (d.evaluation r).state.elapsed)

/-- An evaluation writes nothing but what it found and what it decided. -/
theorem evaluation_entries {d : Deployment} {r : Request} (hfit : r.defect? = none)
    {x : CacheEntry} (hx : x ∈ (d.evaluation r).state.cache.entries) :
    x ∈ d.cache.entries ∨ Writes d r x := by
  obtain ⟨-, hways⟩ := d.evaluation_fit hfit
  cases hways with
  | served v hkept hresult hentries => exact .inl (hentries x hx)
  | failed hkept hresult horder hentries => exact .inl (hentries x hx)
  | computed policies hkept hloaded hsource hresult hcache hentries =>
      rcases hentries x hx with hold | rfl | ⟨rfl, rfl, hqueried⟩
      · exact .inl hold
      · exact .inr (.decision policies hkept hloaded hsource hresult)
      · exact .inr (.candidates hqueried)

/-- The workers leave all but the queue of actions as the event left it. -/
theorem step_state (executor : Executor) (d : Deployment) (e : Event) :
    SameWorld (d.happen e).state (d.step executor e).state ∧
      (d.step executor e).state.cache = (d.happen e).state.cache :=
  ⟨⟨rfl, rfl, rfl, rfl, fun _ => rfl, rfl, rfl, Nat.le_refl _, rfl⟩, rfl⟩

theorem Progress.trans {a b c : Deployment} (hab : Progress a b) (hbc : Progress b c) :
    Progress a c where
  config := by rw [hbc.config, hab.config]
  tick := by rw [hbc.tick, hab.tick]
  clock := by
    intro htick
    rw [hbc.clock (by rw [hab.tick, htick]), hab.clock htick]
  elapsed := Nat.le_trans hab.elapsed hbc.elapsed

/-- An ordinary event lets no time go back. -/
theorem step_progress (executor : Executor) {d : Deployment} {e : Event}
    (h : e.isOrdinary = true) : Progress d (d.step executor e).state := by
  have hsettled := (step_state executor d e).1.progress
  by_cases hevaluates : ∃ r, e.request? = some r ∧ r.defect? = none
  · obtain ⟨r, hrequest, hfit⟩ := hevaluates
    rw [(happen_request hrequest hfit).1] at hsettled
    exact (d.evaluation_fit hfit).1.progress.trans hsettled
  · obtain ⟨hhappen, -⟩ := happen_ordinary (d := d) h fun r hr hfit => hevaluates ⟨r, hr, hfit⟩
    exact hhappen.trans hsettled

theorem after_event (executor : Executor) (d : Deployment) (e : Event) :
    ∃ dispatcher, d.after executor (Move.event e).events =
      { (d.happen e).state with dispatcher } :=
  ⟨_, rfl⟩

theorem after_pass (executor : Executor) (d : Deployment) (span : Nat) :
    ∃ dispatcher, d.after executor (Move.pass span).events =
      { d with clock := d.clock.advance span, elapsed := d.elapsed + span, dispatcher } :=
  ⟨_, rfl⟩

/-- An ordinary move leads to a later state, and leaves the clock timed. -/
theorem move_later (executor : Executor) {d : Deployment} (htimed : d.IsTimed) {m : Move}
    (h : m.isOrdinary = true) :
    (d.after executor m.events).IsTimed ∧ Later d (d.after executor m.events) := by
  cases m with
  | event e =>
      have hprogress : Progress d (d.step executor e).state := step_progress executor h
      exact ⟨hprogress.isTimed htimed, hprogress.later htimed.tick⟩
  | pass span =>
      obtain ⟨dispatcher, hpass⟩ := after_pass executor d span
      have hcount := Instant.count_advance htimed.plain span
      rw [hpass]
      refine ⟨⟨htimed.tick, Instant.isPlain_advance htimed.plain span⟩, rfl, ?_, ?_⟩
      · simp only [hcount]
        omega
      · simp only [hcount]
        omega

theorem run_later (executor : Executor) {d : Deployment} (htimed : d.IsTimed) (ms : List Move)
    (h : ∀ m ∈ ms, m.isOrdinary = true) :
    (d.run executor ms).IsTimed ∧ Later d (d.run executor ms) := by
  refine run_induction (motive := fun later => later.IsTimed ∧ Later d later) executor
    ⟨htimed, Later.refl d⟩ ?_
  rintro later m hm ⟨htimed', hlater⟩
  obtain ⟨htimed'', hlater'⟩ := move_later executor htimed' (h m hm)
  exact ⟨htimed'', hlater.trans hlater'⟩

/-! ## Where entries come from -/

/-- Only the evaluation of a fit request brings an entry into a cache that is
left to the engine. -/
theorem happen_sparing {d : Deployment} {e : Event} (h : e.sparesCache = true) {x : CacheEntry}
    (hx : x ∈ (d.happen e).state.cache.entries) :
    x ∈ d.cache.entries ∨ ∃ r, e.request? = some r ∧ r.defect? = none ∧ Writes d r x := by
  by_cases hevaluates : ∃ r, e.request? = some r ∧ r.defect? = none
  · obtain ⟨r, hrequest, hfit⟩ := hevaluates
    rw [(happen_request hrequest hfit).1] at hx
    exact (evaluation_entries hfit hx).imp id fun hwrites => ⟨r, hrequest, hfit, hwrites⟩
  · left
    rcases Event.sparesCache_cases h with hordinary | ⟨now, rfl⟩ | ⟨span, rfl⟩
    · exact (happen_ordinary hordinary fun r hr hfit => hevaluates ⟨r, hr, hfit⟩).2 x hx
    · exact hx
    · exact hx

/-- An evaluation of a fit request in a run, behind some moves. -/
structure Occurs (ms before : List Move) (e : Event) (r : Request) : Prop where
  place : ∃ later, ms = before ++ .event e :: later
  request : e.request? = some r
  fit : r.defect? = none

theorem Occurs.append {ms before : List Move} {e : Event} {r : Request}
    (h : Occurs ms before e r) (more : List Move) : Occurs (ms ++ more) before e r := by
  obtain ⟨later, rfl⟩ := h.place
  refine ⟨⟨later ++ more, ?_⟩, h.request, h.fit⟩
  rw [List.append_assoc, List.cons_append]

theorem Occurs.mem {ms before : List Move} {e : Event} {r : Request}
    (h : Occurs ms before e r) : Move.event e ∈ ms := by
  obtain ⟨later, rfl⟩ := h.place
  exact List.mem_append_right _ List.mem_cons_self

theorem Occurs.cons {ms before : List Move} {e : Event} {r : Request} (h : Occurs ms before e r)
    (m : Move) : Occurs (m :: ms) (m :: before) e r := by
  obtain ⟨later, rfl⟩ := h.place
  exact ⟨⟨later, rfl⟩, h.request, h.fit⟩

/-- An entry of a run was there at its start or was written by one of its
evaluations. -/
theorem run_sparing (executor : Executor) {d : Deployment} {ms : List Move}
    (h : ∀ m ∈ ms, m.sparesCache = true) {x : CacheEntry}
    (hx : x ∈ (d.run executor ms).cache.entries) :
    x ∈ d.cache.entries ∨
      ∃ before e r, Occurs ms before e r ∧ Writes (d.run executor before) r x := by
  induction ms generalizing d with
  | nil => exact .inl hx
  | cons m ms ih =>
      rw [run_cons] at hx
      rcases ih (fun n hn => h n (List.mem_cons_of_mem _ hn)) hx with hthere | horigin
      · cases m with
        | pass span => exact .inl hthere
        | event e =>
            refine (happen_sparing (h _ List.mem_cons_self) hthere).imp id ?_
            rintro ⟨r, hrequest, hfit, hwrites⟩
            exact ⟨[], e, r, ⟨⟨ms, rfl⟩, hrequest, hfit⟩, hwrites⟩
      · obtain ⟨before, e, r, hoccurs, hwrites⟩ := horigin
        refine .inr ⟨m :: before, e, r, hoccurs.cons m, ?_⟩
        rw [run_cons]
        exact hwrites

end Deployment

end DecisionPoint
