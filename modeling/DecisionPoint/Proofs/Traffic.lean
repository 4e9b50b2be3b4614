import DecisionPoint.Proofs.Isolation
import DecisionPoint.Proofs.Winner

/-!
Calls under way at the same time. Every call holds its own dialogue, one
question after the other, and offers its actions to the queue one by one; the
workers take and finish actions, and anything else may happen to the engine, in
between. Turns are taken in any order, and one that is not possible changes
nothing. An action that was put into the queue is counted in a turn of its own,
so that a worker may have finished it before.

What the callers get and what the cache holds depends on no worker.
-/

namespace DecisionPoint

open Dialogue (Held)

namespace Dispatcher

def admits (d : Dispatcher) : Bool :=
  d.isOpen && decide (d.queue.length < d.capacity)

def send (d : Dispatcher) (job : Job) : Dispatcher :=
  if d.admits then { d with queue := d.queue ++ [job] } else d

/-- Counts an action that was put into the queue or dropped. -/
def note (d : Dispatcher) (admitted : Bool) : Dispatcher :=
  { d with tally :=
    if admitted then { d.tally with queued := d.tally.queued + 1 }
    else { d.tally with dropped := d.tally.dropped + 1 } }

/-- Puts one action into the queue or drops it. -/
def offer (d : Dispatcher) (job : Job) : Dispatcher :=
  (d.send job).note d.admits

end Dispatcher

def Event.dialogue? (c : Config) : Event → Option (Dialogue (Except EngineError Verdict))
  | .evaluate r => some (Engine.evaluate c r)
  | .evaluateAsync r _ => some (Engine.evaluate c r)
  | .evaluateText s => some (Engine.evaluateText c s)
  | .evaluateTextAsync s _ => some (Engine.evaluateText c s)
  | _ => none

/-- What a caller gets for a dialogue that came to a result, or broke down, after
some time. -/
def Event.replyWith (c : Config) (spent : Nat) (result : Option (Except EngineError Verdict)) :
    Event → Reply
  | .evaluateAsync _ deadline =>
    .evaluation (Deployment.awaited (deadline.getD c.storeBudget) spent result)
  | .evaluateTextAsync _ deadline =>
    .evaluation (Deployment.awaited (deadline.getD c.storeBudget) spent result)
  | _ => result.elim .crashed .evaluation

/-- A call: what is left of its dialogue unless a collaborator broke down, what was
asked so far, the actions that are still to be offered to the queue, and whether
the last one was put there, as long as this is not counted. `began` and `latest`
are the times of its first and its last turn. -/
structure Call where
  event : Event
  rest : Option (Dialogue (Except EngineError Verdict))
  transcript : List Exchange
  waiting : List Job
  sent : Option Bool
  began : Nat
  latest : Nat

namespace Call

def isHandingOver (call : Call) : Bool :=
  !call.waiting.isEmpty || call.sent.isSome

/-- Asks the next question. Actions are not dispatched yet, but wait to be offered. -/
def ask (call : Call) (d : Deployment) : Call × Deployment :=
  match call.isHandingOver, call.rest with
  | false, some (.ask question next) =>
    let (answer, after) := Deployment.collaborators question d
    ({ call with
        rest := answer.map next
        transcript := call.transcript ++ [⟨question, answer⟩]
        waiting := Exchange.jobs ⟨question, answer⟩
        latest := after.elapsed },
      { after with dispatcher := d.dispatcher })
  | _, _ => (call, d)

def send (call : Call) (d : Deployment) : Call × Deployment :=
  match call.sent, call.waiting with
  | none, job :: jobs =>
    ({ call with waiting := jobs, sent := some d.dispatcher.admits },
      { d with dispatcher := d.dispatcher.send job })
  | _, _ => (call, d)

def count (call : Call) (d : Deployment) : Call × Deployment :=
  match call.sent with
  | some admitted =>
    ({ call with sent := none, latest := d.elapsed },
      { d with dispatcher := d.dispatcher.note admitted })
  | none => (call, d)

theorem isHandingOver_iff {call : Call} :
    call.isHandingOver = false ↔ call.waiting = [] ∧ call.sent = none := by
  simp [isHandingOver]

/-- The end of a dialogue that has ended: its result, unless a collaborator broke
down. -/
def ended? (call : Call) : Option (Option (Except EngineError Verdict)) :=
  match call.rest with
  | none => some none
  | some (.done result) => some (some result)
  | some (.ask _ _) => none

def reply? (c : Config) (call : Call) : Option Reply :=
  if call.isHandingOver then none
  else call.ended?.map fun result => call.event.replyWith c (call.latest - call.began) result

end Call

/-- An engine and the calls that were made to it, in the order in which they began. -/
structure Traffic where
  deployment : Deployment
  calls : List Call

/-- What may come next: a call begins, asks a question, offers an action or counts
it; a worker takes an action or finishes one; or something else happens. -/
inductive Turn where
  | begin (e : Event)
  | ask (i : Nat)
  | send (i : Nat)
  | count (i : Nat)
  | take
  | finish (i : Nat) (outcome : Execution)
  | other (e : Event)

def Turn.isOfWorker : Turn → Bool
  | .take => true
  | .finish _ _ => true
  | _ => false

def Event.dispatches : Event → Bool
  | .dispatch _ _ => true
  | e => e.isEvaluation

namespace Traffic

def start (c : Config) (capacity : Nat) (backend : Backend) (clock : Time.Instant) (tick : Nat) :
    Traffic :=
  ⟨.start c capacity backend clock tick, []⟩

def move (f : Traffic) (i : Nat) (act : Call → Deployment → Call × Deployment) : Traffic :=
  match f.calls[i]? with
  | none => f
  | some call => ⟨(act call f.deployment).2, f.calls.set i (act call f.deployment).1⟩

def withDispatcher (f : Traffic) (dispatcher : Dispatcher) : Traffic :=
  { f with deployment := { f.deployment with dispatcher } }

/-- A turn is taken. Calls begin and act in turns of their own only. -/
def step (f : Traffic) : Turn → Traffic
  | .begin e =>
    (e.dialogue? f.deployment.config).elim f fun dialogue =>
      { f with calls := f.calls ++
        [⟨e, some dialogue, [], [], none, f.deployment.elapsed, f.deployment.elapsed⟩] }
  | .ask i => f.move i Call.ask
  | .send i => f.move i Call.send
  | .count i => f.move i Call.count
  | .take => f.deployment.dispatcher.take?.elim f f.withDispatcher
  | .finish i outcome =>
    (f.deployment.dispatcher.finish? i outcome).elim f fun ended => f.withDispatcher ended.2
  | .other e =>
    if e.dispatches then f else { f with deployment := (f.deployment.happen e).state }

def run (f : Traffic) (ts : List Turn) : Traffic :=
  ts.foldl step f

theorem run_append (f : Traffic) (ts us : List Turn) :
    f.run (ts ++ us) = (f.run ts).run us :=
  List.foldl_append

/-- What every turn preserves holds after any turns. -/
theorem run_induction {motive : Traffic → Prop} {f : Traffic} (hstart : motive f)
    (hstep : ∀ f t, motive f → motive (step f t)) (ts : List Turn) : motive (f.run ts) := by
  induction ts generalizing f with
  | nil => exact hstart
  | cons t ts ih => exact ih (hstep f t hstart)

theorem exists_split {xs : List α} {i : Nat} {x : α} (h : xs[i]? = some x) :
    ∃ front back, xs = front ++ x :: back ∧ (∀ y, xs.set i y = front ++ y :: back) ∧
      xs.eraseIdx i = front ++ back := by
  induction xs generalizing i with
  | nil => cases h
  | cons first rest ih =>
      cases i with
      | zero =>
          cases h
          exact ⟨[], rest, rfl, fun _ => rfl, rfl⟩
      | succ i =>
          obtain ⟨front, back, hrest, hset, herase⟩ := ih h
          refine ⟨first :: front, back, congrArg (first :: ·) hrest, fun y => ?_,
            congrArg (first :: ·) herase⟩
          exact congrArg (first :: ·) (hset y)

/-- What a turn may come to. A call that asks, offers or counts is one of the
calls, and the others stay as they are. -/
inductive Moves (f : Traffic) : Turn → Traffic → Prop
  | idle (t : Turn) : Moves f t f
  | begins (e : Event) (dialogue : Dialogue (Except EngineError Verdict))
      (hdialogue : e.dialogue? f.deployment.config = some dialogue) :
      Moves f (.begin e) { f with calls := f.calls ++
        [⟨e, some dialogue, [], [], none, f.deployment.elapsed, f.deployment.elapsed⟩] }
  | asks (i : Nat) {front back : List Call} {call : Call} (question : Question)
      (next : question.Answer → Dialogue (Except EngineError Verdict))
      (answer : Option question.Answer) (after : Deployment)
      (hcalls : f.calls = front ++ call :: back) (hwaiting : call.waiting = [])
      (hsent : call.sent = none) (hrest : call.rest = some (.ask question next))
      (hanswer : Deployment.collaborators question f.deployment = (answer, after)) :
      Moves f (.ask i) ⟨{ after with dispatcher := f.deployment.dispatcher },
        front ++ { call with
          rest := answer.map next
          transcript := call.transcript ++ [⟨question, answer⟩]
          waiting := Exchange.jobs ⟨question, answer⟩
          latest := after.elapsed } :: back⟩
  | sends (i : Nat) {front back : List Call} {call : Call} (job : Job) (jobs : List Job)
      (hcalls : f.calls = front ++ call :: back) (hsent : call.sent = none)
      (hwaiting : call.waiting = job :: jobs) :
      Moves f (.send i) ⟨{ f.deployment with dispatcher := f.deployment.dispatcher.send job },
        front ++ { call with
          waiting := jobs
          sent := some f.deployment.dispatcher.admits } :: back⟩
  | counts (i : Nat) {front back : List Call} {call : Call} (admitted : Bool)
      (hcalls : f.calls = front ++ call :: back) (hsent : call.sent = some admitted) :
      Moves f (.count i) ⟨{ f.deployment with dispatcher := f.deployment.dispatcher.note admitted },
        front ++ { call with sent := none, latest := f.deployment.elapsed } :: back⟩
  | takes (dispatcher : Dispatcher) (htake : f.deployment.dispatcher.take? = some dispatcher) :
      Moves f .take (f.withDispatcher dispatcher)
  | finishes (i : Nat) (outcome : Execution) (job : Job) (dispatcher : Dispatcher)
      (hfinish : f.deployment.dispatcher.finish? i outcome = some (job, dispatcher)) :
      Moves f (.finish i outcome) (f.withDispatcher dispatcher)
  | happens (e : Event) (hquiet : e.dispatches = false) :
      Moves f (.other e) { f with deployment := (f.deployment.happen e).state }

/-- A move of a call, if there is one, leaves the calls around it as they are. -/
theorem move_cases (f : Traffic) (i : Nat) (act : Call → Deployment → Call × Deployment) :
    f.move i act = f ∨ ∃ front call back, f.calls = front ++ call :: back ∧
      f.move i act =
        ⟨(act call f.deployment).2, front ++ (act call f.deployment).1 :: back⟩ := by
  unfold move
  cases hcall : f.calls[i]? with
  | none => exact .inl rfl
  | some call =>
      obtain ⟨front, back, hcalls, hset, -⟩ := exists_split hcall
      exact .inr ⟨front, call, back, hcalls, by simp only [hset]⟩

/-- A turn comes to one of the moves, or to nothing. -/
theorem step_moves (f : Traffic) (t : Turn) : Moves f t (f.step t) := by
  cases t with
  | begin e =>
      simp only [step]
      cases hdialogue : e.dialogue? f.deployment.config with
      | none => exact .idle _
      | some dialogue => exact .begins e dialogue hdialogue
  | ask i =>
      simp only [step]
      rcases f.move_cases i Call.ask with hsame | ⟨front, call, back, hcalls, hmoved⟩
      · rw [hsame]
        exact .idle _
      · simp only [hmoved, Call.ask]
        split
        · rename_i question next hready hrest
          obtain ⟨hwaiting, hsent⟩ := Call.isHandingOver_iff.mp hready
          exact .asks i question next _ _ hcalls hwaiting hsent hrest rfl
        · rw [← hcalls]
          exact .idle _
  | send i =>
      simp only [step]
      rcases f.move_cases i Call.send with hsame | ⟨front, call, back, hcalls, hmoved⟩
      · rw [hsame]
        exact .idle _
      · simp only [hmoved, Call.send]
        split
        · rename_i job jobs hsent hwaiting
          exact .sends i job jobs hcalls hsent hwaiting
        · rw [← hcalls]
          exact .idle _
  | count i =>
      simp only [step]
      rcases f.move_cases i Call.count with hsame | ⟨front, call, back, hcalls, hmoved⟩
      · rw [hsame]
        exact .idle _
      · simp only [hmoved, Call.count]
        split
        · rename_i admitted hsent
          exact .counts i admitted hcalls hsent
        · rw [← hcalls]
          exact .idle _
  | take =>
      simp only [step]
      cases htake : f.deployment.dispatcher.take? with
      | none => exact .idle _
      | some dispatcher => exact .takes dispatcher htake
  | finish i outcome =>
      simp only [step]
      cases hfinish : f.deployment.dispatcher.finish? i outcome with
      | none => exact .idle _
      | some ended => exact .finishes i outcome ended.1 ended.2 hfinish
  | other e =>
      simp only [step]
      cases hquiet : e.dispatches with
      | true => exact .idle _
      | false => exact .happens e hquiet

end Traffic

/-! ## What a call has held -/

/-- What was asked in a call and what is left of it make up the dialogue of its
event. -/
def Call.Sound (c : Config) (call : Call) : Prop :=
  ∃ dialogue, call.event.dialogue? c = some dialogue ∧
    match call.rest with
    | none => Held dialogue call.transcript none
    | some rest => ∀ transcript result, Held rest transcript result →
        Held dialogue (call.transcript ++ transcript) result

namespace Call

variable {c : Config} {call : Call}

theorem sound_begun {e : Event} {dialogue : Dialogue (Except EngineError Verdict)}
    (h : e.dialogue? c = some dialogue) (now : Nat) :
    Sound c ⟨e, some dialogue, [], [], none, now, now⟩ :=
  ⟨dialogue, h, fun _ _ hheld => hheld⟩

/-- A question more, answered or not, leaves a call sound. -/
theorem Sound.asks (h : call.Sound c) {question : Question}
    {next : question.Answer → Dialogue (Except EngineError Verdict)}
    (hrest : call.rest = some (.ask question next)) (answer : Option question.Answer)
    (waiting : List Job) (now : Nat) :
    Sound c { call with
      rest := answer.map next
      transcript := call.transcript ++ [⟨question, answer⟩]
      waiting := waiting
      latest := now } := by
  obtain ⟨dialogue, hdialogue, hheld⟩ := h
  rw [hrest] at hheld
  refine ⟨dialogue, hdialogue, ?_⟩
  cases answer with
  | none => exact hheld _ _ (.broken question next)
  | some answer =>
      intro transcript result hafter
      rw [List.append_assoc]
      exact hheld _ _ (.answered question next answer hafter)

def due (c : Config) (call : Call) : Nat :=
  call.event.request?.elim 0 fun r => DecisionPoint.due c r call.transcript call.ended?.join

/-- An evaluation hands over as many actions as are due for it. -/
theorem length_dispatched_of_dialogue {e : Event} {dialogue : Dialogue (Except EngineError Verdict)}
    (hdialogue : e.dialogue? c = some dialogue) {transcript : List Exchange}
    {result : Option (Except EngineError Verdict)} (h : Held dialogue transcript result) :
    (dispatched transcript).length =
      e.request?.elim 0 fun r => DecisionPoint.due c r transcript result := by
  have htext : ∀ s, Held (Engine.evaluateText c s) transcript result →
      (dispatched transcript).length =
        (Request.ofText s).toOption.elim 0 fun r => DecisionPoint.due c r transcript result := by
    intro s hheld
    unfold Engine.evaluateText at hheld
    cases hread : Request.ofText s with
    | error e =>
        rw [hread] at hheld
        obtain ⟨rfl, rfl⟩ := hheld.of_pure
        rfl
    | ok r =>
        rw [hread] at hheld
        exact length_dispatched hheld
  cases e with
  | evaluate r =>
      cases hdialogue
      exact length_dispatched h
  | evaluateAsync r deadline =>
      cases hdialogue
      exact length_dispatched h
  | evaluateText s =>
      cases hdialogue
      exact htext s h
  | evaluateTextAsync s deadline =>
      cases hdialogue
      exact htext s h
  | _ => cases hdialogue

/-- A call has dispatched the actions that are due for it so far. -/
theorem Sound.length_dispatched (h : call.Sound c) :
    (dispatched call.transcript).length = call.due c := by
  obtain ⟨dialogue, hdialogue, hheld⟩ := h
  have hdue : ∀ {transcript : List Exchange} {result : Option (Except EngineError Verdict)},
      Held dialogue transcript result → (dispatched transcript).length =
        call.event.request?.elim 0 fun r => DecisionPoint.due c r transcript result :=
    length_dispatched_of_dialogue hdialogue
  unfold due ended?
  split at hheld
  · rename_i hrest
    rw [hrest]
    exact hdue hheld
  · rename_i rest hrest
    rw [hrest]
    cases rest with
    | done result =>
        have hdone := hdue (hheld _ _ (.done result))
        rw [List.append_nil] at hdone
        exact hdone
    | ask question next =>
        -- Were the next question the last, nothing would have been due.
        have hbroken := hdue (hheld _ _ (.broken question next))
        have hnothing : ∀ transcript, (call.event.request?.elim 0 fun r =>
            DecisionPoint.due c r transcript none) = 0 := by
          intro transcript
          cases call.event.request? <;> rfl
        rw [hnothing, dispatched_append, List.length_append] at hbroken
        exact (Nat.add_eq_zero_iff.mp hbroken).1.trans (hnothing _).symm

end Call

namespace Traffic

structure Sound (c : Config) (f : Traffic) : Prop where
  config : f.deployment.config = c
  calls : ∀ call ∈ f.calls, call.Sound c

/-- A turn keeps every call on the way of its dialogue. -/
theorem Sound.step {c : Config} {f : Traffic} (h : f.Sound c) (t : Turn) :
    (f.step t).Sound c := by
  -- Only one call changes, and what it changes to is sound.
  have hmoved : ∀ {front back : List Call} {call moved : Call} {d : Deployment},
      f.calls = front ++ call :: back → (call.Sound c → moved.Sound c) → d.config = c →
        Sound c ⟨d, front ++ moved :: back⟩ := by
    intro front back call moved d hcalls hmoved hconfig
    have hsound := h.calls
    rw [hcalls] at hsound
    refine ⟨hconfig, ?_⟩
    intro other hother
    rcases List.mem_append.mp hother with hfront | hrest
    · exact hsound other (List.mem_append_left _ hfront)
    · rcases List.mem_cons.mp hrest with rfl | hback
      · exact hmoved (hsound call (List.mem_append_right _ List.mem_cons_self))
      · exact hsound other (List.mem_append_right _ (List.mem_cons_of_mem _ hback))
  have hmoves := f.step_moves t
  generalize f.step t = g at *
  cases hmoves with
  | idle => exact h
  | begins e dialogue hdialogue =>
      refine ⟨h.config, ?_⟩
      intro call hcall
      rcases List.mem_append.mp hcall with hold | hnew
      · exact h.calls call hold
      · obtain rfl := List.mem_singleton.mp hnew
        rw [h.config] at hdialogue
        exact Call.sound_begun hdialogue _
  | asks i question next answer after hcalls hwaiting hsent hrest hanswer =>
      have hworld := f.deployment.collaborators_sameWorld question
      rw [hanswer] at hworld
      exact hmoved hcalls (fun hsound => hsound.asks hrest answer _ _)
        (hworld.config.trans h.config)
  | sends i job jobs hcalls hsent hwaiting => exact hmoved hcalls id h.config
  | counts i admitted hcalls hsent => exact hmoved hcalls id h.config
  | takes dispatcher htake => exact ⟨h.config, h.calls⟩
  | finishes i outcome job dispatcher hfinish => exact ⟨h.config, h.calls⟩
  | happens e hquiet => exact ⟨(f.deployment.happen_setup e).config.trans h.config, h.calls⟩

end Traffic

/-! ## What the workers do not touch -/

/-- A deployment but for what its workers change. -/
def Deployment.withoutWorkers (d : Deployment) : Deployment :=
  { d with dispatcher := .start 0 0 }

/-- A call but for whether there was room for its last action. -/
def Call.withoutWorkers (call : Call) : Call :=
  { call with sent := call.sent.map fun _ => true }

def Traffic.withoutWorkers (f : Traffic) : Traffic :=
  ⟨f.deployment.withoutWorkers, f.calls.map Call.withoutWorkers⟩

namespace Deployment

/-- Only a dispatch gives the dispatcher something to do. -/
theorem collaborators_dispatcher {question : Question}
    (h : ∀ actions context, question ≠ .dispatch actions context) (d : Deployment) :
    (collaborators question d).2.dispatcher = d.dispatcher := by
  have hfind : ∀ fault query, (d.find fault query).2.dispatcher = d.dispatcher := by
    intro fault query
    unfold find
    split
    · rfl
    · split <;> rfl
  cases question with
  | cacheGet key =>
      simp only [collaborators, cacheGet]
      split <;> rfl
  | cacheSet key value ttl =>
      simp only [collaborators]
      split <;> rfl
  | cacheDelete key =>
      simp only [collaborators]
      split <;> rfl
  | cacheDeleteAll start =>
      simp only [collaborators]
      split <;> rfl
  | findGlobal now => exact hfind _ _
  | findActive tenant now => exact hfind _ _
  | now => rfl
  | dispatch actions context => exact absurd rfl (h actions context)

/-- No answer depends on the workers. -/
theorem collaborators_withoutWorkers (question : Question) (d : Deployment) :
    (collaborators question d.withoutWorkers).1 = (collaborators question d).1 ∧
      (collaborators question d.withoutWorkers).2.withoutWorkers =
        (collaborators question d).2.withoutWorkers := by
  have hfind : ∀ fault query, (d.withoutWorkers.find fault query).1 = (d.find fault query).1 ∧
      (d.withoutWorkers.find fault query).2.withoutWorkers =
        (d.find fault query).2.withoutWorkers := by
    intro fault query
    unfold find
    by_cases hcrash : fault.crashes = true
    · simp [hcrash, withoutWorkers, wait]
    · cases fault.error with
      | some e => simp [hcrash, withoutWorkers, wait]
      | none => simp [hcrash, withoutWorkers, wait]
  cases question with
  | cacheGet key =>
      simp only [collaborators, cacheGet]
      by_cases hfault : (d.cacheFaults key).get = true
      · simp [withoutWorkers, wait, hfault]
      · simp [withoutWorkers, wait, hfault]
  | cacheSet key value ttl =>
      by_cases hfault : (d.cacheFaults key).set = true
      · simp [collaborators, withoutWorkers, hfault]
      · simp [collaborators, withoutWorkers, hfault]
  | cacheDelete key =>
      by_cases hfault : (d.cacheFaults key).delete = true
      · simp [collaborators, withoutWorkers, hfault]
      · simp [collaborators, withoutWorkers, hfault]
  | cacheDeleteAll start =>
      by_cases hfault : (d.cacheFaults start).delete = true
      · simp [collaborators, withoutWorkers, hfault]
      · simp [collaborators, withoutWorkers, hfault]
  | findGlobal now => exact hfind d.globalFault Backend.findGlobal
  | findActive tenant now => exact hfind d.tenantFault (Backend.findActive tenant)
  | now => exact ⟨rfl, rfl⟩
  | dispatch actions context => exact ⟨rfl, rfl⟩

theorem hold_withoutWorkers (x : Dialogue α) {d later : Deployment}
    (h : d.withoutWorkers = later.withoutWorkers) :
    (d.hold x).state.withoutWorkers = (later.hold x).state.withoutWorkers := by
  have hstep : ∀ question (d later : Deployment), True →
      d.withoutWorkers = later.withoutWorkers →
        (collaborators question d).1 = (collaborators question later).1 ∧
          (collaborators question d).2.withoutWorkers =
            (collaborators question later).2.withoutWorkers := by
    intro question d later _ hsame
    obtain ⟨hanswer, hstate⟩ := collaborators_withoutWorkers question d
    obtain ⟨hanswer', hstate'⟩ := collaborators_withoutWorkers question later
    rw [hsame] at hanswer hstate
    exact ⟨hanswer.symm.trans hanswer', hstate.symm.trans hstate'⟩
  have hasks : x.Asks fun _ => True := fun _ _ _ _ _ => trivial
  exact (hasks.run_agrees hstep h).2.2

theorem happen_withoutWorkers (d : Deployment) {e : Event} (hquiet : e.dispatches = false) :
    (d.withoutWorkers.happen e).state.withoutWorkers = (d.happen e).state.withoutWorkers := by
  have hheld : ∀ {α : Type} (x : Dialogue α) (reply : α → Reply),
      (d.withoutWorkers.answer x reply).state.withoutWorkers =
        (d.answer x reply).state.withoutWorkers := by
    intro α x reply
    exact hold_withoutWorkers x rfl
  cases e with
  | record e =>
      cases e with
      | defaultTtl => rfl
      | _ => exact hheld _ _
  | policyChanged p => exact hheld _ _
  | cache e => cases e <;> rfl
  | evaluate r => cases hquiet
  | evaluateText s => cases hquiet
  | evaluateAsync r deadline => cases hquiet
  | evaluateTextAsync s deadline => cases hquiet
  | dispatch actions context => cases hquiet
  | _ => rfl

end Deployment

namespace Call

theorem withoutWorkers_withoutWorkers (call : Call) :
    call.withoutWorkers.withoutWorkers = call.withoutWorkers := by
  simp [withoutWorkers]

theorem isHandingOver_withoutWorkers (call : Call) :
    call.withoutWorkers.isHandingOver = call.isHandingOver := by
  simp [withoutWorkers, isHandingOver]

theorem ask_withoutWorkers (call : Call) (d : Deployment) :
    (call.withoutWorkers.ask d.withoutWorkers).1.withoutWorkers =
        (call.ask d).1.withoutWorkers ∧
      (call.withoutWorkers.ask d.withoutWorkers).2.withoutWorkers =
        (call.ask d).2.withoutWorkers := by
  have hrest : call.withoutWorkers.rest = call.rest := rfl
  unfold ask
  rw [isHandingOver_withoutWorkers, hrest]
  cases call.isHandingOver with
  | true => exact ⟨call.withoutWorkers_withoutWorkers, rfl⟩
  | false =>
      cases call.rest with
      | none => exact ⟨call.withoutWorkers_withoutWorkers, rfl⟩
      | some rest =>
          cases rest with
          | done result => exact ⟨call.withoutWorkers_withoutWorkers, rfl⟩
          | ask question next =>
              obtain ⟨hanswer, hstate⟩ := Deployment.collaborators_withoutWorkers question d
              have helapsed := congrArg Deployment.elapsed hstate
              change (Deployment.collaborators question d.withoutWorkers).2.elapsed =
                (Deployment.collaborators question d).2.elapsed at helapsed
              refine ⟨?_, hstate⟩
              simp [withoutWorkers, hanswer, helapsed]

theorem send_withoutWorkers (call : Call) (d : Deployment) :
    (call.withoutWorkers.send d.withoutWorkers).1.withoutWorkers =
        (call.send d).1.withoutWorkers ∧
      (call.withoutWorkers.send d.withoutWorkers).2.withoutWorkers =
        (call.send d).2.withoutWorkers := by
  unfold send
  cases hsent : call.sent with
  | some admitted => simp [withoutWorkers, hsent, Deployment.withoutWorkers]
  | none =>
      cases hwaiting : call.waiting with
      | nil => simp [withoutWorkers, hsent, hwaiting, Deployment.withoutWorkers]
      | cons job jobs => simp [withoutWorkers, hsent, hwaiting, Deployment.withoutWorkers]

theorem count_withoutWorkers (call : Call) (d : Deployment) :
    (call.withoutWorkers.count d.withoutWorkers).1.withoutWorkers =
        (call.count d).1.withoutWorkers ∧
      (call.withoutWorkers.count d.withoutWorkers).2.withoutWorkers =
        (call.count d).2.withoutWorkers := by
  unfold count
  cases hsent : call.sent with
  | some admitted => simp [withoutWorkers, hsent, Deployment.withoutWorkers]
  | none => simp [withoutWorkers, hsent, Deployment.withoutWorkers]

/-- What the caller gets does not depend on the workers. -/
theorem reply_withoutWorkers (c : Config) (call : Call) :
    call.withoutWorkers.reply? c = call.reply? c := by
  unfold reply?
  rw [isHandingOver_withoutWorkers]
  rfl

end Call

namespace Traffic

theorem move_withoutWorkers (f : Traffic) (i : Nat)
    {act : Call → Deployment → Call × Deployment}
    (hact : ∀ call d, (act (call.withoutWorkers) d.withoutWorkers).1.withoutWorkers =
        (act call d).1.withoutWorkers ∧
      (act (call.withoutWorkers) d.withoutWorkers).2.withoutWorkers =
        (act call d).2.withoutWorkers) :
    (f.withoutWorkers.move i act).withoutWorkers = (f.move i act).withoutWorkers := by
  have hcalls : f.withoutWorkers.calls[i]? = f.calls[i]?.map Call.withoutWorkers :=
    List.getElem?_map
  have hidem : Call.withoutWorkers ∘ Call.withoutWorkers = Call.withoutWorkers :=
    funext Call.withoutWorkers_withoutWorkers
  unfold move
  rw [hcalls]
  cases f.calls[i]? with
  | none => simp [withoutWorkers, Deployment.withoutWorkers, hidem]
  | some call =>
      obtain ⟨hcall, hdeployment⟩ := hact call f.deployment
      simp only [Option.map_some, withoutWorkers, List.map_set, List.map_map, hidem] at *
      rw [hcall, hdeployment]

/-- What workers change has no bearing on any other turn. -/
theorem step_withoutWorkers (f : Traffic) {t : Turn} (hown : t.isOfWorker = false) :
    (f.withoutWorkers.step t).withoutWorkers = (f.step t).withoutWorkers := by
  have hidem : Call.withoutWorkers ∘ Call.withoutWorkers = Call.withoutWorkers :=
    funext Call.withoutWorkers_withoutWorkers
  cases t with
  | begin e =>
      have hconfig : f.withoutWorkers.deployment.config = f.deployment.config := rfl
      simp only [step, hconfig]
      cases e.dialogue? f.deployment.config with
      | none => simp [withoutWorkers, Deployment.withoutWorkers, hidem]
      | some dialogue => simp [withoutWorkers, Deployment.withoutWorkers, hidem]
  | ask i => exact f.move_withoutWorkers i Call.ask_withoutWorkers
  | send i => exact f.move_withoutWorkers i Call.send_withoutWorkers
  | count i => exact f.move_withoutWorkers i Call.count_withoutWorkers
  | take => cases hown
  | finish i outcome => cases hown
  | other e =>
      simp only [step]
      cases hquiet : e.dispatches with
      | true => simp [withoutWorkers, Deployment.withoutWorkers, hidem]
      | false =>
          have hstate := f.deployment.happen_withoutWorkers hquiet
          simpa [withoutWorkers, hidem] using hstate

/-- The turns of the workers change nothing else. -/
theorem step_ofWorker (f : Traffic) {t : Turn} (hworker : t.isOfWorker = true) :
    (f.step t).withoutWorkers = f.withoutWorkers := by
  have hmoves := f.step_moves t
  generalize f.step t = g at *
  cases hmoves with
  | idle => rfl
  | takes dispatcher htake => rfl
  | finishes i outcome job dispatcher hfinish => rfl
  | _ => cases hworker

/-- What a run comes to, but for what the workers change, does not depend on when
they move and how their executions end. -/
theorem run_withoutWorkers {f g : Traffic} (h : f.withoutWorkers = g.withoutWorkers)
    (ts : List Turn) : (f.run ts).withoutWorkers =
      (g.run (ts.filter fun t => !t.isOfWorker)).withoutWorkers := by
  induction ts generalizing f g with
  | nil => exact h
  | cons t ts ih =>
      cases hworker : t.isOfWorker with
      | true =>
          rw [List.filter_cons_of_neg (by simp [hworker])]
          exact ih ((f.step_ofWorker hworker).trans h)
      | false =>
          rw [List.filter_cons_of_pos (by simp [hworker])]
          apply ih
          rw [← f.step_withoutWorkers hworker, h, g.step_withoutWorkers hworker]

end Traffic

end DecisionPoint
