import DecisionPoint.Proofs.Dispatch

/-!
Calls that hand actions to a dispatcher while its workers execute others. Every call
offers its actions one by one in the order of dispatch, and workers take and finish
actions in between, in any order of acts; an act that is not possible changes nothing.
What has entered the queue, what was handed to the executor and what has ended is
written down, each in the order in which it came about.

Every queued action is handed over once, in the order of the queue, and ends once. With
one worker, calls one after the other and room for all, actions are executed in the
order of the calls and within a call in the order of dispatch.
-/

namespace DecisionPoint

open Dispatcher (jobsOf)

/-- A call that hands actions to a dispatcher: those that were offered, each with
whether there was room for it, and those that are still to be offered. -/
structure Batch where
  actions : List Action
  context : ActionContext
  offered : List (Job × Bool)
  waiting : List Job

namespace Batch

def jobs (b : Batch) : List Job :=
  jobsOf b.actions b.context

def queued (b : Batch) : List Job :=
  (b.offered.filter (·.2)).map (·.1)

def dropped (b : Batch) : List Job :=
  (b.offered.filter fun offer => !offer.2).map (·.1)

/-- A call after it offered an action, with what is still to be offered. -/
def afterOffer (b : Batch) (job : Job) (admitted : Bool) (jobs : List Job) : Batch :=
  { b with offered := b.offered ++ [(job, admitted)], waiting := jobs }

theorem queued_afterOffer (b : Batch) (job : Job) (admitted : Bool) (jobs : List Job) :
    (b.afterOffer job admitted jobs).queued = b.queued ++ if admitted then [job] else [] := by
  cases admitted <;> simp [afterOffer, queued]

theorem dropped_afterOffer (b : Batch) (job : Job) (admitted : Bool) (jobs : List Job) :
    (b.afterOffer job admitted jobs).dropped = b.dropped ++ if admitted then [] else [job] := by
  cases admitted <;> simp [afterOffer, dropped]

/-- What was offered and what is still to be offered are the actions of a call, in the
order of dispatch. -/
def InOrder (b : Batch) : Prop :=
  b.offered.map (·.1) ++ b.waiting = b.jobs

theorem InOrder.afterOffer {b : Batch} (h : b.InOrder) {job : Job} {jobs : List Job}
    (hwaiting : b.waiting = job :: jobs) (admitted : Bool) :
    (b.afterOffer job admitted jobs).InOrder := by
  rw [InOrder, hwaiting] at h
  simpa [InOrder, Batch.afterOffer, Batch.jobs] using h

end Batch

/-- An execution that ended: the action as the executor saw it, how its execution went
and the status that it ended in. -/
structure Ending where
  job : Job
  outcome : Execution
  status : ActionStatus

/-- A dispatcher, the calls that were made to it, and what has happened to actions. -/
structure Workshop where
  dispatcher : Dispatcher
  batches : List Batch
  entered : List Job
  handed : List Job
  ended : List Ending

/-- What may come next: a call begins or offers an action, a worker takes an action or
finishes one, or the dispatcher is shut down. -/
inductive Act where
  | begin (actions : List Action) (context : ActionContext)
  | offer (i : Nat)
  | take
  | finish (i : Nat) (outcome : Execution)
  | shutdown

def Act.isOfWorker : Act → Bool
  | .take => true
  | .finish _ _ => true
  | _ => false

def Act.isOfCallOrWorker (i : Nat) : Act → Bool
  | .offer j => j == i
  | act => act.isOfWorker

def Act.isBegin : Act → Bool
  | .begin _ _ => true
  | _ => false

namespace Workshop

def start (workers capacity : Nat) : Workshop :=
  ⟨.start workers capacity, [], [], [], []⟩

def offer (w : Workshop) (i : Nat) (batch : Batch) (job : Job) (jobs : List Job) : Workshop :=
  { w with
    dispatcher := w.dispatcher.offer job
    batches := w.batches.set i (batch.afterOffer job w.dispatcher.admits jobs)
    entered := w.entered ++ if w.dispatcher.admits then [job] else [] }

def step (w : Workshop) : Act → Workshop
  | .begin actions context =>
    { w with batches := w.batches ++ [⟨actions, context, [], jobsOf actions context⟩] }
  | .offer i =>
    match w.batches[i]? with
    | none => w
    | some batch =>
      match batch.waiting with
      | [] => w
      | job :: jobs => w.offer i batch job jobs
  | .take =>
    w.dispatcher.take?.elim w fun after =>
      { w with dispatcher := after, handed := w.handed ++ w.dispatcher.queue.take 1 }
  | .finish i outcome =>
    match w.dispatcher.busy[i]?, w.dispatcher.finish? i outcome with
    | some job, some (ended, after) =>
      { w with
        dispatcher := after
        ended := w.ended ++ [⟨job, outcome, ended.action.status⟩] }
    | _, _ => w
  | .shutdown => { w with dispatcher := w.dispatcher.shutdown }

def run (w : Workshop) (acts : List Act) : Workshop :=
  acts.foldl step w

/-- What an act may come to. A call that offers an action is one of the calls, and an
action that is finished one of those that workers are busy with; the others stay as they
are. -/
inductive Does (w : Workshop) : Act → Workshop → Prop
  | idle (act : Act) : Does w act w
  | begins (actions : List Action) (context : ActionContext) :
      Does w (.begin actions context)
        { w with batches := w.batches ++ [⟨actions, context, [], jobsOf actions context⟩] }
  | offers (i : Nat) {front back : List Batch} {batch : Batch} {job : Job} {jobs : List Job}
      (hbatches : w.batches = front ++ batch :: back) (hwaiting : batch.waiting = job :: jobs) :
      Does w (.offer i)
        { w with
          dispatcher := w.dispatcher.offer job
          batches := front ++ batch.afterOffer job w.dispatcher.admits jobs :: back
          entered := w.entered ++ if w.dispatcher.admits then [job] else [] }
  | takes {job : Job} {rest : List Job} (hqueue : w.dispatcher.queue = job :: rest)
      (hfree : w.dispatcher.busy.length < w.dispatcher.workers) :
      Does w .take
        { w with
          dispatcher := { w.dispatcher with
            queue := rest
            busy := w.dispatcher.busy ++ [job] }
          handed := w.handed ++ [job] }
  | finishes (i : Nat) (outcome : Execution) {front back : List Job} {job : Job}
      (hbusy : w.dispatcher.busy = front ++ job :: back) :
      Does w (.finish i outcome)
        { w with
          dispatcher := { w.dispatcher with
            busy := front ++ back
            tally := w.dispatcher.tally.count outcome }
          ended := w.ended ++ [⟨job, outcome, job.action.status.transition outcome.status⟩] }
  | closes : Does w .shutdown { w with dispatcher := w.dispatcher.shutdown }

/-- An act comes to one of the doings, or to nothing. -/
theorem step_does (w : Workshop) (act : Act) : Does w act (w.step act) := by
  cases act with
  | begin actions context => exact .begins actions context
  | offer i =>
      simp only [step]
      cases hbatch : w.batches[i]? with
      | none => exact .idle _
      | some batch =>
          cases hwaiting : batch.waiting with
          | nil =>
              simp only [hwaiting]
              exact .idle _
          | cons job jobs =>
              obtain ⟨front, back, hbatches, hset, -⟩ := Traffic.exists_split hbatch
              simp only [hwaiting, offer, hset]
              exact .offers i hbatches hwaiting
  | take =>
      simp only [step]
      cases htake : w.dispatcher.take? with
      | none => exact .idle _
      | some after =>
          obtain ⟨job, rest, hqueue, hfree, rfl⟩ := Dispatcher.take?_eq_some htake
          simp only [Option.elim, hqueue]
          exact .takes hqueue hfree
  | finish i outcome =>
      simp only [step]
      cases hjob : w.dispatcher.busy[i]? with
      | none => exact .idle _
      | some job =>
          obtain ⟨front, back, hbusy, -, herase⟩ := Traffic.exists_split hjob
          simp only [Dispatcher.finish?_of_busy hjob, herase]
          exact .finishes i outcome hbusy
  | shutdown => exact .closes

/-- What every act preserves holds after any acts. -/
theorem run_induction {motive : Workshop → Prop} {w : Workshop} (hstart : motive w)
    (hstep : ∀ w act, motive w → motive (step w act)) (acts : List Act) : motive (w.run acts) := by
  induction acts generalizing w with
  | nil => exact hstart
  | cons act acts ih => exact ih (hstep w act hstart)

/-! ## Where actions are -/

/-- Where the actions of all calls are, and what became of those that ended. -/
structure Sound (w : Workshop) : Prop where
  room : w.dispatcher.queue.length ≤ w.dispatcher.capacity
  crew : w.dispatcher.busy.length ≤ w.dispatcher.workers
  offers : ∀ batch ∈ w.batches, batch.InOrder
  queued : w.entered.Perm (w.batches.flatMap Batch.queued)
  inTurn : w.entered = w.handed ++ w.dispatcher.queue
  once : w.handed.Perm (w.ended.map (·.job) ++ w.dispatcher.busy)
  statuses : ∀ e ∈ w.ended, e.status = e.outcome.status

theorem Sound.pending {w : Workshop} (h : w.Sound) {job : Job} (hjob : job ∈ w.entered) :
    job.action.status = .pending := by
  obtain ⟨batch, hbatch, hqueued⟩ := List.mem_flatMap.mp (h.queued.mem_iff.mp hjob)
  obtain ⟨offer, hoffer, rfl⟩ := List.mem_map.mp hqueued
  have hmem : offer.1 ∈ batch.jobs := by
    have hinOrder : batch.offered.map (·.1) ++ batch.waiting = batch.jobs := h.offers batch hbatch
    rw [← hinOrder]
    exact List.mem_append_left _ (List.mem_map_of_mem (List.mem_filter.mp hoffer).1)
  exact Dispatcher.pending_of_mem_jobsOf hmem

theorem Sound.pending_of_mem_busy {w : Workshop} (h : w.Sound) {job : Job}
    (hjob : job ∈ w.dispatcher.busy) : job.action.status = .pending := by
  apply h.pending
  rw [h.inTurn]
  exact List.mem_append_left _ (h.once.mem_iff.mpr (List.mem_append_right _ hjob))

/-- The status that an action ended in tells how its execution went. -/
theorem Sound.status_iff {w : Workshop} (h : w.Sound) {e : Ending} (he : e ∈ w.ended) :
    (e.status = .executed ↔ e.outcome = .succeeded) ∧
      (e.status = .failed ↔ e.outcome ≠ .succeeded) := by
  rw [h.statuses e he]
  cases e.outcome <;> simp [Execution.status]

/-- Whatever is done, every action stays accounted for. -/
theorem Sound.step {w : Workshop} (h : w.Sound) (act : Act) : (w.step act).Sound := by
  have hpending := @Sound.pending_of_mem_busy w h
  obtain ⟨hroom, hcrew, hoffers, hqueued, hinTurn, honce, hstatuses⟩ := h
  have hdoes := w.step_does act
  generalize w.step act = after at *
  cases hdoes with
  | idle => exact ⟨hroom, hcrew, hoffers, hqueued, hinTurn, honce, hstatuses⟩
  | begins actions context =>
      refine ⟨hroom, hcrew, ?_, ?_, hinTurn, honce, hstatuses⟩
      · intro batch hbatch
        rcases List.mem_append.mp hbatch with hold | hnew
        · exact hoffers batch hold
        · rw [List.mem_singleton.mp hnew]
          rfl
      · simpa [Batch.queued] using hqueued
  | @offers i front back batch job jobs hbatches hwaiting =>
      have hspace := Dispatcher.length_offer_le hroom job
      rw [hbatches] at hoffers hqueued
      rw [Dispatcher.offer_eq] at hspace ⊢
      refine ⟨hspace, hcrew, ?_, ?_, ?_, honce, hstatuses⟩
      · intro other hother
        rcases List.mem_append.mp hother with hfront | hrest
        · exact hoffers other (List.mem_append_left _ hfront)
        rcases List.mem_cons.mp hrest with rfl | hback
        · exact (hoffers batch (by simp)).afterOffer hwaiting _
        · exact hoffers other (List.mem_append_right _ (List.mem_cons_of_mem _ hback))
      · simp only [List.flatMap_append, List.flatMap_cons, Batch.queued_afterOffer,
          List.append_assoc] at hqueued ⊢
        generalize (if w.dispatcher.admits = true then [job] else []) = new
        refine (hqueued.append_right new).trans ?_
        simp only [List.append_assoc]
        exact (List.perm_append_comm.append_left _).append_left _
      · rw [hinTurn, List.append_assoc]
  | takes hqueue hfree =>
      rw [hqueue] at hroom hinTurn
      refine ⟨?_, ?_, hoffers, hqueued, ?_, ?_, hstatuses⟩
      · simp only [List.length_cons] at hroom ⊢
        omega
      · simp only [List.length_append, List.length_singleton]
        omega
      · simp only [hinTurn, List.append_assoc, List.singleton_append]
      · simp only [← List.append_assoc]
        exact honce.append_right _
  | @finishes i outcome front back job hbusy =>
      rw [hbusy] at hcrew honce
      have hjob : job.action.status = .pending :=
        hpending (hbusy ▸ List.mem_append_right _ List.mem_cons_self)
      refine ⟨hroom, ?_, hoffers, hqueued, hinTurn, ?_, ?_⟩
      · simp only [List.length_append, List.length_cons] at hcrew ⊢
        omega
      · refine honce.trans ?_
        simp only [List.map_append, List.map_cons, List.map_nil, List.append_assoc]
        exact List.perm_middle.append_left _
      · intro e he
        rcases List.mem_append.mp he with hold | hnew
        · exact hstatuses e hold
        · rw [List.mem_singleton.mp hnew, hjob]
          cases outcome <;> rfl
  | closes => exact ⟨hroom, hcrew, hoffers, hqueued, hinTurn, honce, hstatuses⟩

theorem sound_run (workers capacity : Nat) (acts : List Act) :
    ((start workers capacity).run acts).Sound := by
  have hstart : (start workers capacity).Sound := by
    refine ⟨Nat.zero_le _, Nat.zero_le _, ?_, .refl _, rfl, .refl _, ?_⟩
    · exact fun _ h => by cases h
    · exact fun _ h => by cases h
  exact run_induction hstart (fun _ act h => h.step act) acts

/-- No act changes the room or the number of workers. -/
theorem run_fixed (w : Workshop) (acts : List Act) :
    (w.run acts).dispatcher.capacity = w.dispatcher.capacity ∧
      (w.run acts).dispatcher.workers = w.dispatcher.workers := by
  have hstep : ∀ (w : Workshop) (act : Act),
      (w.step act).dispatcher.capacity = w.dispatcher.capacity ∧
        (w.step act).dispatcher.workers = w.dispatcher.workers := by
    intro w act
    have hdoes := w.step_does act
    generalize w.step act = after at *
    cases hdoes with
    | offers =>
        rw [Dispatcher.offer_eq]
        exact ⟨rfl, rfl⟩
    | _ => exact ⟨rfl, rfl⟩
  exact run_induction (motive := fun after =>
      after.dispatcher.capacity = w.dispatcher.capacity ∧
        after.dispatcher.workers = w.dispatcher.workers) ⟨rfl, rfl⟩
    (fun after act h => ⟨(hstep after act).1.trans h.1, (hstep after act).2.trans h.2⟩) acts

/-! ## A call during which no worker takes an action -/

/-- How far a call has come that nothing else was offered or taken in between: it has
filled the places that were left when it began, and dropped whatever came after. -/
structure Fills (w : Workshop) (batch : Batch) (now : Workshop) : Prop where
  batches : now.batches = w.batches ++ [batch]
  offers : batch.InOrder
  queue : now.dispatcher.queue = w.dispatcher.queue ++ batch.queued
  queued : batch.queued = (batch.offered.map (·.1)).take w.dispatcher.free
  dropped : batch.dropped = (batch.offered.map (·.1)).drop w.dispatcher.free
  isOpen : now.dispatcher.isOpen = w.dispatcher.isOpen
  capacity : now.dispatcher.capacity = w.dispatcher.capacity

section Fills

variable {w now : Workshop} {batch : Batch}

/-- A call that has offered all of its actions has queued the first ones, as many as
there were places, and dropped the others. -/
theorem Fills.of_offered (h : Fills w batch now) (hover : batch.waiting = []) :
    batch.queued = batch.jobs.take w.dispatcher.free ∧
      batch.dropped = batch.jobs.drop w.dispatcher.free := by
  have hoffers := h.offers
  rw [Batch.InOrder, hover, List.append_nil] at hoffers
  rw [← hoffers]
  exact ⟨h.queued, h.dropped⟩

/-- There is room as long as fewer actions were offered than there were places. -/
theorem Fills.admits (h : Fills w batch now) :
    now.dispatcher.admits = decide (batch.offered.length < w.dispatcher.free) := by
  have hlength : now.dispatcher.queue.length =
      w.dispatcher.queue.length + min w.dispatcher.free batch.offered.length := by
    rw [h.queue, h.queued, List.length_append, List.length_take, List.length_map]
  rw [Dispatcher.admits, h.isOpen, h.capacity, hlength, Dispatcher.free]
  cases w.dispatcher.isOpen with
  | true =>
      simp only [Bool.true_and, if_true, decide_eq_decide]
      omega
  | false => simp

theorem Fills.offer (h : Fills w batch now) {job : Job} {jobs : List Job}
    (hwaiting : batch.waiting = job :: jobs) :
    Fills w (batch.afterOffer job now.dispatcher.admits jobs)
      (now.step (.offer w.batches.length)) := by
  have hstep : now.step (.offer w.batches.length) =
      now.offer w.batches.length batch job jobs := by
    simp only [step, h.batches, List.getElem?_concat_length, hwaiting]
  rw [hstep, Workshop.offer, Dispatcher.offer_eq]
  have hroom := h.admits
  refine ⟨?_, h.offers.afterOffer hwaiting _, ?_, ?_, ?_, h.isOpen, h.capacity⟩
  · simp [h.batches]
  · simp only [h.queue, Batch.queued_afterOffer, List.append_assoc]
  · rw [Batch.queued_afterOffer, h.queued, hroom]
    simp only [Batch.afterOffer, List.map_append, List.map_cons, List.map_nil, List.take_append,
      List.length_map]
    cases hleft : w.dispatcher.free - batch.offered.length with
    | zero => simp [Nat.not_lt.mpr (Nat.sub_eq_zero_iff_le.mp hleft)]
    | succ left => simp [Nat.lt_of_sub_eq_succ hleft]
  · rw [Batch.dropped_afterOffer, h.dropped, hroom]
    simp only [Batch.afterOffer, List.map_append, List.map_cons, List.map_nil, List.drop_append,
      List.length_map]
    cases hleft : w.dispatcher.free - batch.offered.length with
    | zero => simp [Nat.not_lt.mpr (Nat.sub_eq_zero_iff_le.mp hleft)]
    | succ left => simp [Nat.lt_of_sub_eq_succ hleft]

/-- A step that is one of the call or of a worker that takes nothing leaves the call on
its way. -/
theorem Fills.step (h : Fills w batch now) {act : Act}
    (hown : act.isOfCallOrWorker w.batches.length = true)
    (hidle : (now.step act).handed.length ≤ now.handed.length) :
    ∃ next, next.jobs = batch.jobs ∧ Fills w next (now.step act) := by
  cases act with
  | offer i =>
      obtain rfl := eq_of_beq hown
      cases hwaiting : batch.waiting with
      | nil =>
          have hstep : now.step (.offer w.batches.length) = now := by
            simp only [Workshop.step, h.batches, List.getElem?_concat_length, hwaiting]
          rw [hstep]
          exact ⟨batch, rfl, h⟩
      | cons job jobs =>
          exact ⟨batch.afterOffer job now.dispatcher.admits jobs, rfl, h.offer hwaiting⟩
  | take =>
      have hdoes := now.step_does .take
      generalize now.step .take = after at *
      cases hdoes with
      | idle => exact ⟨batch, rfl, h⟩
      | takes =>
          simp only [List.length_append, List.length_singleton] at hidle
          omega
  | finish i outcome =>
      have hdoes := now.step_does (.finish i outcome)
      generalize now.step (.finish i outcome) = after at *
      cases hdoes with
      | idle => exact ⟨batch, rfl, h⟩
      | finishes =>
          exact ⟨batch, rfl, h.batches, h.offers, h.queue, h.queued, h.dropped, h.isOpen,
            h.capacity⟩
  | begin actions context => cases hown
  | shutdown => cases hown

theorem handed_le_run (w : Workshop) (acts : List Act) :
    w.handed.length ≤ (w.run acts).handed.length := by
  have hstep : ∀ (w : Workshop) (act : Act), w.handed.length ≤ (w.step act).handed.length := by
    intro w act
    have hdoes := w.step_does act
    generalize w.step act = after at *
    cases hdoes <;> simp
  exact run_induction (motive := fun after => w.handed.length ≤ after.handed.length)
    (Nat.le_refl _) (fun after act h => Nat.le_trans h (hstep after act)) acts

/-- A call that is not interrupted fills the places that were left, and drops whatever comes
after. -/
theorem Fills.run (h : Fills w batch now) {acts : List Act}
    (hown : ∀ act ∈ acts, act.isOfCallOrWorker w.batches.length = true)
    (hidle : (now.run acts).handed.length ≤ now.handed.length) :
    ∃ next, next.jobs = batch.jobs ∧ Fills w next (now.run acts) := by
  induction acts generalizing now batch with
  | nil => exact ⟨batch, rfl, h⟩
  | cons act acts ih =>
      have hrest := handed_le_run (now.step act) acts
      have hfirst := handed_le_run now [act]
      obtain ⟨next, hjobs, hnext⟩ := h.step (hown act List.mem_cons_self)
        (Nat.le_trans hrest hidle)
      obtain ⟨last, hsame, hlast⟩ := ih hnext
        (fun act hact => hown act (List.mem_cons_of_mem _ hact)) (Nat.le_trans hidle hfirst)
      exact ⟨last, hsame.trans hjobs, hlast⟩

/-- A call during which nothing is taken has the first of its actions queued, in the
order of dispatch, as far as there were places when it began, and the others dropped. -/
theorem fills_of_run (w : Workshop) (actions : List Action) (context : ActionContext)
    {acts : List Act} (hown : ∀ act ∈ acts, act.isOfCallOrWorker w.batches.length = true)
    (hidle : ((w.step (.begin actions context)).run acts).handed = w.handed) :
    ∃ batch, batch.jobs = jobsOf actions context ∧
      Fills w batch ((w.step (.begin actions context)).run acts) := by
  have hbegun : Fills w ⟨actions, context, [], jobsOf actions context⟩
      (w.step (.begin actions context)) :=
    ⟨rfl, rfl, (List.append_nil _).symm, List.take_nil.symm, List.drop_nil.symm, rfl, rfl⟩
  exact hbegun.run hown (Nat.le_of_eq (congrArg List.length hidle))

end Fills

/-! ## The workers -/

/-- A worker that does something brings the end nearer. -/
theorem movesLeft_lt_of_isOfWorker (w : Workshop) {act : Act} (hworker : act.isOfWorker = true) :
    w.step act = w ∨ (w.step act).dispatcher.movesLeft < w.dispatcher.movesLeft := by
  have hdoes := w.step_does act
  generalize w.step act = after at *
  cases hdoes with
  | idle => exact .inl rfl
  | takes hqueue hfree =>
      right
      simp only [Dispatcher.movesLeft, hqueue, List.length_cons, List.length_append,
        List.length_nil]
      omega
  | finishes i outcome hbusy =>
      right
      simp only [Dispatcher.movesLeft, hbusy, List.length_cons, List.length_append]
      omega
  | begins => cases hworker
  | offers => cases hworker
  | closes => cases hworker

/-- As long as an action is in the queue or with a worker, some worker can do something,
however executions end. -/
theorem exists_move (w : Workshop) (hworkers : 0 < w.dispatcher.workers)
    (hleft : w.dispatcher.movesLeft ≠ 0) (outcome : Execution) :
    ∃ act ∈ [Act.take, .finish 0 outcome],
      (w.step act).dispatcher.movesLeft < w.dispatcher.movesLeft := by
  cases hbusy : w.dispatcher.busy with
  | cons job rest =>
      refine ⟨.finish 0 outcome, by simp, ?_⟩
      simp [step, Dispatcher.finish?, Dispatcher.movesLeft, hbusy]
  | nil =>
      cases hqueue : w.dispatcher.queue with
      | nil => simp [Dispatcher.movesLeft, hqueue, hbusy] at hleft
      | cons job rest =>
          refine ⟨.take, by simp, ?_⟩
          simp only [step, Dispatcher.take?, hqueue, hbusy, List.length_nil, hworkers, if_true,
            Option.elim, Dispatcher.movesLeft, List.length_cons, List.nil_append]
          omega

/-- With no move left, all that has entered has ended. -/
theorem Sound.ended_of_movesLeft {w : Workshop} (h : w.Sound)
    (hdone : w.dispatcher.movesLeft = 0) : (w.ended.map (·.job)).Perm w.entered := by
  obtain ⟨hqueue, hbusy⟩ : w.dispatcher.queue = [] ∧ w.dispatcher.busy = [] := by
    rw [← List.length_eq_zero_iff, ← List.length_eq_zero_iff]
    simp only [Dispatcher.movesLeft] at hdone
    omega
  have honce := h.once
  rw [hbusy, List.append_nil] at honce
  rw [h.inTurn, hqueue, List.append_nil]
  exact honce.symm

/-! ## One call after the other, and one worker -/

/-- Whether no call begins before the one before it has offered all of its actions. -/
def IsSequential : Workshop → List Act → Prop
  | _, [] => True
  | w, act :: acts =>
    (act.isBegin = true → ∀ batch ∈ w.batches, batch.waiting = []) ∧
      IsSequential (w.step act) acts

instance decidableIsSequential : (w : Workshop) → (acts : List Act) →
    Decidable (IsSequential w acts)
  | _, [] => isTrue trivial
  | w, act :: acts => @instDecidableAnd _ _ inferInstance (decidableIsSequential (w.step act) acts)

/-- Only the last call still has actions to offer, and what has entered the queue came
call by call. -/
structure InSequence (w : Workshop) : Prop where
  waiting : ∀ batch ∈ w.batches.dropLast, batch.waiting = []
  entered : w.entered = w.batches.flatMap Batch.queued

/-- Calls that wait for each other enter the queue one after the other. -/
theorem InSequence.step {w : Workshop} (h : w.InSequence) {act : Act}
    (hbegin : act.isBegin = true → ∀ batch ∈ w.batches, batch.waiting = []) :
    (w.step act).InSequence := by
  obtain ⟨hearlier, hentered⟩ := h
  have hdoes := w.step_does act
  generalize w.step act = after at *
  cases hdoes with
  | begins actions context =>
      constructor
      · simpa using hbegin rfl
      · simpa [Batch.queued] using hentered
  | @offers i front back batch job jobs hbatches hwaiting =>
      -- A call with an action to offer is the last one.
      obtain rfl : back = [] := by
        cases back with
        | nil => rfl
        | cons other rest =>
            have hnone := hearlier batch (by simp [hbatches])
            rw [hwaiting] at hnone
            cases hnone
      rw [hbatches] at hearlier hentered
      constructor
      · simpa using hearlier
      · simp [hentered, Batch.queued_afterOffer]
  | _ => exact ⟨hearlier, hentered⟩

theorem InSequence.run {w : Workshop} (h : w.InSequence) {acts : List Act}
    (hcalls : IsSequential w acts) : (w.run acts).InSequence := by
  induction acts generalizing w with
  | nil => exact h
  | cons act acts ih => exact ih (h.step hcalls.1) hcalls.2

/-- Where nothing was dropped, actions have entered in the order of the calls and of
dispatch. -/
theorem InSequence.handed {w : Workshop} (h : w.InSequence) (hsound : w.Sound)
    (hroom : ∀ batch ∈ w.batches, batch.dropped = []) :
    w.handed ++ w.dispatcher.queue ++ w.batches.flatMap Batch.waiting =
      w.batches.flatMap Batch.jobs := by
  have hjobs : ∀ batch ∈ w.batches, batch.jobs = batch.queued ++ batch.waiting := by
    intro batch hbatch
    have hall : ∀ offer ∈ batch.offered, offer.2 = true := by
      simpa [Batch.dropped] using hroom batch hbatch
    exact (hsound.offers batch hbatch).symm.trans (by
      rw [Batch.queued, List.filter_eq_self.mpr hall])
  rw [← hsound.inTurn, h.entered]
  rcases List.eq_nil_or_concat w.batches with hnone | ⟨front, last, hbatches⟩
  · rw [hnone]
    rfl
  · have hearlier := h.waiting
    rw [hbatches, List.concat_eq_append, List.dropLast_concat] at hearlier
    rw [hbatches, List.concat_eq_append] at hjobs ⊢
    have hwaiting : front.flatMap Batch.waiting = [] := List.flatMap_eq_nil_iff.mpr hearlier
    have hfront : front.flatMap Batch.jobs = front.flatMap Batch.queued := by
      rw [List.flatMap_def, List.flatMap_def]
      apply congrArg List.flatten (List.map_congr_left _)
      intro batch hbatch
      rw [hjobs batch (List.mem_append_left _ hbatch), hearlier batch hbatch, List.append_nil]
    simp only [List.flatMap_append, List.flatMap_singleton, hwaiting, hfront, List.nil_append,
      hjobs last (List.mem_append_right _ List.mem_cons_self), List.append_assoc]

/-- A worker that is alone finishes actions in the order in which it was handed them. -/
structure Alone (w : Workshop) : Prop where
  workers : w.dispatcher.workers ≤ 1
  busy : w.dispatcher.busy.length ≤ 1
  handed : w.handed = w.ended.map (·.job) ++ w.dispatcher.busy

/-- A worker that is alone keeps to the order in which it is handed actions. -/
theorem Alone.step {w : Workshop} (h : w.Alone) (act : Act) : (w.step act).Alone := by
  obtain ⟨hworkers, hbusy, hhanded⟩ := h
  have hdoes := w.step_does act
  generalize w.step act = after at *
  cases hdoes with
  | offers =>
      rw [Dispatcher.offer_eq]
      exact ⟨hworkers, hbusy, hhanded⟩
  | takes hqueue hfree =>
      have hidle : w.dispatcher.busy = [] := by
        rw [← List.length_eq_zero_iff]
        omega
      refine ⟨hworkers, ?_, ?_⟩
      · simp [hidle]
      · simp [hhanded, hidle]
  | @finishes i outcome front back job hjob =>
      rw [hjob] at hbusy hhanded
      obtain ⟨rfl, rfl⟩ : front = [] ∧ back = [] := by
        simp only [List.length_append, List.length_cons] at hbusy
        rw [← List.length_eq_zero_iff, ← List.length_eq_zero_iff]
        omega
      refine ⟨hworkers, Nat.zero_le _, ?_⟩
      simpa using hhanded
  | _ => exact ⟨hworkers, hbusy, hhanded⟩

/-- One worker executes the actions of calls that come one after the other, if none is
dropped, in the order of the calls and of dispatch. -/
theorem executed_in_order {workers capacity : Nat} (hworkers : workers ≤ 1) {acts : List Act}
    (hcalls : IsSequential (start workers capacity) acts)
    (hroom : ∀ batch ∈ ((start workers capacity).run acts).batches, batch.dropped = []) :
    ((start workers capacity).run acts).ended.map (·.job) ++
        ((start workers capacity).run acts).dispatcher.busy ++
        ((start workers capacity).run acts).dispatcher.queue ++
        ((start workers capacity).run acts).batches.flatMap Batch.waiting =
      ((start workers capacity).run acts).batches.flatMap Batch.jobs := by
  have hone : (start workers capacity).dispatcher.workers ≤ 1 :=
    Nat.max_le.mpr ⟨hworkers, Nat.le_refl 1⟩
  have halone : ((start workers capacity).run acts).Alone :=
    run_induction ⟨hone, Nat.zero_le _, rfl⟩ (fun _ act h => h.step act) acts
  have hsequence : ((start workers capacity).run acts).InSequence :=
    InSequence.run ⟨(fun _ h => by cases h), rfl⟩ hcalls
  rw [← halone.handed]
  exact hsequence.handed (sound_run workers capacity acts) hroom

/-! ## The whole way of actions -/

/-- A dispatch puts as many actions into the queue as there are places left, in the
order of dispatch, and drops the others, which come after them in that order. That is so
too where a call offers its actions one by one while workers finish others, as long as
they take none. At any time every action that has entered the queue is pending, was
queued by its call, and is in the queue, or with a worker, or has ended, in the status
that its execution tells; none is handed over before one that entered before it. Workers
that go on come to the end of all that has entered. And with one worker, calls one after
the other and none dropped, actions are executed in the order of the calls and of
dispatch. -/
theorem dispatched_in_order (workers capacity : Nat) :
    (∀ actions, Dispatcher.IsDispatchOrder actions (Dispatcher.inOrder actions)) ∧
    (∀ (d : Dispatcher) actions context,
      let jobs := jobsOf actions context
      (d.dispatch actions context).queue = d.queue ++ jobs.take d.free ∧
        (d.dispatch actions context).tally.dropped =
          d.tally.dropped + (jobs.drop d.free).length ∧
        ∀ first ∈ jobs.take d.free, ∀ last ∈ jobs.drop d.free,
          last.action.priority ≤ first.action.priority) ∧
    (∀ (w : Workshop) actions context acts,
      (∀ act ∈ acts, act.isOfCallOrWorker w.batches.length = true) →
      let after := (w.step (.begin actions context)).run acts
      after.handed = w.handed →
        ∃ batch, after.batches = w.batches ++ [batch] ∧ batch.jobs = jobsOf actions context ∧
          (batch.waiting = [] →
            batch.queued = batch.jobs.take w.dispatcher.free ∧
              batch.dropped = batch.jobs.drop w.dispatcher.free ∧
              after.dispatcher.queue = (w.dispatcher.dispatch actions context).queue)) ∧
    (∀ acts, let w := (start workers capacity).run acts
      w.Sound ∧ w.dispatcher.capacity = max capacity 1 ∧
        (∀ job ∈ w.entered, job.action.status = .pending) ∧
        (∀ e ∈ w.ended, (e.status = .executed ↔ e.outcome = .succeeded) ∧
          (e.status = .failed ↔ e.outcome ≠ .succeeded)) ∧
        (∀ act, act.isOfWorker = true →
          w.step act = w ∨ (w.step act).dispatcher.movesLeft < w.dispatcher.movesLeft) ∧
        ∀ outcome,
          (w.dispatcher.movesLeft = 0 ∧ (w.ended.map (·.job)).Perm w.entered) ∨
            ∃ act ∈ [Act.take, .finish 0 outcome],
              (w.step act).dispatcher.movesLeft < w.dispatcher.movesLeft) ∧
    (∀ (d : Dispatcher) executor, d.isHeld = false → 0 < d.workers →
      (d.settle executor).1 = d.busy ++ d.queue ∧ (d.settle executor).2.movesLeft = 0) ∧
    ∀ acts, workers ≤ 1 → IsSequential (start workers capacity) acts →
      let w := (start workers capacity).run acts
      (∀ batch ∈ w.batches, batch.dropped = []) →
        w.ended.map (·.job) ++ w.dispatcher.busy ++ w.dispatcher.queue ++
          w.batches.flatMap Batch.waiting = w.batches.flatMap Batch.jobs := by
  refine ⟨Dispatcher.isDispatchOrder_inOrder, ?_, ?_, ?_, ?_, ?_⟩
  · intro d actions context jobs
    obtain ⟨hqueue, hdropped⟩ := d.dispatch_eq actions context
    exact ⟨hqueue, hdropped, fun _ hfirst _ hlast =>
      Dispatcher.priority_le_of_mem_drop hfirst hlast⟩
  · intro w actions context acts hown after hidle
    obtain ⟨batch, hjobs, hfills⟩ := fills_of_run w actions context hown hidle
    refine ⟨batch, hfills.batches, hjobs, ?_⟩
    intro hover
    obtain ⟨hqueued, hdropped⟩ := hfills.of_offered hover
    refine ⟨hqueued, hdropped, ?_⟩
    rw [hfills.queue, hqueued, hjobs, (w.dispatcher.dispatch_eq actions context).1]
  · intro acts w
    have hsound := sound_run workers capacity acts
    obtain ⟨hcapacity, hworkers⟩ := run_fixed (start workers capacity) acts
    have hcrew : 0 < w.dispatcher.workers := hworkers ▸ Nat.le_max_right workers 1
    refine ⟨hsound, hcapacity, fun job => hsound.pending, fun e => hsound.status_iff,
      fun act => w.movesLeft_lt_of_isOfWorker, ?_⟩
    intro outcome
    by_cases hdone : w.dispatcher.movesLeft = 0
    · exact .inl ⟨hdone, hsound.ended_of_movesLeft hdone⟩
    · exact .inr (w.exists_move hcrew hdone outcome)
  · intro d executor hfree hworkers
    rw [Dispatcher.settle_eq executor hfree hworkers]
    exact ⟨rfl, rfl⟩
  · intro acts hworkers hcalls w
    exact executed_in_order hworkers hcalls

/-- Some action of a priority, which its document gives some status. -/
def sampleAction (priority : Int32) (status : ActionStatus) : Action :=
  ⟨.logEvent, "", none, priority, status⟩

def sampleContext : ActionContext :=
  ⟨"open-house", .allow, "user-1", none, "document", none, none⟩

/-- Two calls with one action each. The first one breaks down while the second one is in
the queue. -/
def sampleActs : List Act :=
  [.begin [sampleAction 3 .pending] sampleContext, .offer 0, .take,
    .begin [sampleAction 1 .executed] sampleContext, .offer 1,
    .finish 0 .crashed, .take, .finish 0 .succeeded]

def sampleActions : List Action :=
  [sampleAction 1 .pending, sampleAction 5 .failed]

theorem jobsOf_sampleActions : jobsOf sampleActions sampleContext =
    [⟨sampleAction 5 .pending, sampleContext⟩, ⟨sampleAction 1 .pending, sampleContext⟩] := by
  have hsorted : sampleActions.mergeSort Dispatcher.precedes =
      [sampleAction 5 .failed, sampleAction 1 .pending] := by
    simp [sampleActions, List.mergeSort, Dispatcher.precedes, sampleAction]
  exact congrArg (fun ordered : List Action =>
    (ordered.map Action.afresh).map (Job.mk · sampleContext)) hsorted

/-- With one worker and one place to wait, the actions of two calls are executed in the
order of the calls, and then one of two more is dropped. -/
theorem dispatched_in_order_sample :
    let w := (start 0 0).run sampleActs
    let after := (w.step (.begin sampleActions sampleContext)).run [.offer 2, .offer 2]
    w.ended.map (·.job) =
        [⟨sampleAction 3 .pending, sampleContext⟩, ⟨sampleAction 1 .pending, sampleContext⟩] ∧
      w.ended.map (·.status) = [.failed, .executed] ∧
      ∃ batch, after.batches = w.batches ++ [batch] ∧
        batch.queued = [⟨sampleAction 5 .pending, sampleContext⟩] ∧
        batch.dropped = [⟨sampleAction 1 .pending, sampleContext⟩] := by
  intro w after
  obtain ⟨-, -, hcall, -, -, hsequence⟩ := dispatched_in_order 0 0
  have hrest : w.dispatcher.busy = [] ∧ w.dispatcher.queue = [] ∧
      w.batches.flatMap Batch.waiting = [] ∧ w.batches.flatMap Batch.jobs =
        [⟨sampleAction 3 .pending, sampleContext⟩, ⟨sampleAction 1 .pending, sampleContext⟩] := by
    decide +kernel
  obtain ⟨hbusy, hqueue, hwaiting, hjobs⟩ := hrest
  have hended : w.ended.map (·.job) ++ w.dispatcher.busy ++ w.dispatcher.queue ++
      w.batches.flatMap Batch.waiting = w.batches.flatMap Batch.jobs :=
    hsequence sampleActs (by decide) (by decide +kernel) (by decide +kernel)
  rw [hbusy, hqueue, hwaiting, hjobs] at hended
  have hbegun : w.step (.begin sampleActions sampleContext) = { w with
      batches := w.batches ++ [⟨sampleActions, sampleContext, [],
        [⟨sampleAction 5 .pending, sampleContext⟩, ⟨sampleAction 1 .pending, sampleContext⟩]⟩] } := by
    simp only [step, jobsOf_sampleActions]
  have hidle : after.handed = w.handed ∧ ∀ batch ∈ after.batches, batch.waiting = [] := by
    simp only [after, hbegun]
    decide +kernel
  have hfree : w.dispatcher.free = 1 := by decide +kernel
  obtain ⟨batch, hbatches, hbatch, hover⟩ := hcall w sampleActions sampleContext
    [.offer 2, .offer 2] (by decide +kernel) hidle.1
  have hmem : batch ∈ after.batches := by
    rw [show after.batches = w.batches ++ [batch] from hbatches]
    exact List.mem_append_right _ List.mem_cons_self
  obtain ⟨hqueued, hdropped, -⟩ := hover (hidle.2 batch hmem)
  rw [hbatch, jobsOf_sampleActions, hfree] at hqueued hdropped
  exact ⟨by simpa using hended, by decide +kernel, batch, hbatches, hqueued, hdropped⟩

end Workshop

end DecisionPoint
