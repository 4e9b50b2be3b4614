import DecisionPoint.Error
import DecisionPoint.Policy.Actions

/-!
The execution of actions. Actions wait in a bounded queue until one of the
workers takes them; what does not fit is dropped. Dispatching never waits, and
nothing that happens to an action changes a verdict.

A dispatcher only moves when it is told to: `dispatch` fills the queue, `take`
lets a worker take the first action of the queue, and `finish` ends an
execution. `settle` makes all the moves that are left. While executions are
held back workers still take actions, but finish none.
-/

namespace DecisionPoint

structure ActionContext where
  policyKey : String
  decision : Decision
  user : String
  tenant : Option String
  resourceType : String
  resourceId : Option String
  clientIp : Option String
deriving DecidableEq, Repr

structure Job where
  action : Action
  context : ActionContext
deriving DecidableEq, Repr

/-- How an execution ends: well, with a failure, or by breaking down. -/
inductive Execution where
  | succeeded
  | failed (error : ActionError)
  | crashed
deriving DecidableEq, Repr

abbrev Executor := Job → Execution

def Executor.lenient : Executor :=
  fun _ => .succeeded

def Execution.status : Execution → ActionStatus
  | .succeeded => .executed
  | .failed _ => .failed
  | .crashed => .failed

/-- How many actions were queued, and what became of them and the others. -/
structure Tally where
  queued : Nat
  executed : Nat
  failed : Nat
  dropped : Nat
deriving DecidableEq, Repr

namespace Tally

def zero : Tally := ⟨0, 0, 0, 0⟩

def completed (t : Tally) : Nat :=
  t.executed + t.failed

def count (t : Tally) (e : Execution) : Tally :=
  match e with
  | .succeeded => { t with executed := t.executed + 1 }
  | .failed _ => { t with failed := t.failed + 1 }
  | .crashed => { t with failed := t.failed + 1 }

end Tally

/-- The queue, the actions that workers are busy with, the earliest taken
first, and the tally. -/
structure Dispatcher where
  workers : Nat
  capacity : Nat
  isOpen : Bool
  isHeld : Bool
  queue : List Job
  busy : List Job
  tally : Tally
deriving Repr

namespace Dispatcher

/-- A dispatcher at rest. It has at least one worker and one place to wait. -/
def start (workers capacity : Nat) : Dispatcher :=
  ⟨max workers 1, max capacity 1, true, false, [], [], .zero⟩

/-- Actions in the order of dispatch: by falling priority, otherwise as they
stand. All of them start as pending. -/
def inOrder (actions : List Action) : List Action :=
  (actions.mergeSort fun a b => b.priority ≤ a.priority).map fun a => { a with status := .pending }

/-- Puts actions into the queue as far as there is room, and drops the others.
A dispatcher that was shut down drops all. -/
def dispatch (d : Dispatcher) (actions : List Action) (context : ActionContext) : Dispatcher :=
  let free := if d.isOpen then d.capacity - d.queue.length else 0
  let jobs := (inOrder actions).map (Job.mk · context)
  let queued := jobs.take free
  { d with
    queue := d.queue ++ queued
    tally := { d.tally with
      queued := d.tally.queued + queued.length
      dropped := d.tally.dropped + (jobs.length - queued.length) } }

/-- A free worker takes the first action of the queue. -/
def take? (d : Dispatcher) : Option Dispatcher :=
  match d.queue with
  | [] => none
  | job :: rest =>
    if d.busy.length < d.workers then some { d with queue := rest, busy := d.busy ++ [job] }
    else none

def finish? (d : Dispatcher) (i : Nat) (e : Execution) : Option (Job × Dispatcher) :=
  match d.busy[i]? with
  | none => none
  | some job =>
    let ended := { job with action.status := job.action.status.transition e.status }
    some (ended, { d with busy := d.busy.eraseIdx i, tally := d.tally.count e })

/-- The moves that are left: two for an action in the queue, one for an action
that a worker is busy with. -/
def movesLeft (d : Dispatcher) : Nat :=
  2 * d.queue.length + d.busy.length

/-- Makes up to `n` moves, workers taking actions before they finish others,
and answers the actions that were executed, as the executor saw them. -/
def run (executor : Executor) : Nat → Dispatcher → List Job × Dispatcher
  | 0, d => ([], d)
  | n + 1, d =>
    match d.take? with
    | some d => run executor n d
    | none =>
      match d.isHeld, d.busy with
      | false, job :: _ =>
        match d.finish? 0 (executor job) with
        | some (_, d) =>
          let (jobs, d) := run executor n d
          (job :: jobs, d)
        | none => ([], d)
      | _, _ => ([], d)

def settle (executor : Executor) (d : Dispatcher) : List Job × Dispatcher :=
  run executor d.movesLeft d

def hold (d : Dispatcher) : Dispatcher :=
  { d with isHeld := true }

def release (d : Dispatcher) : Dispatcher :=
  { d with isHeld := false }

/-- Takes in no actions from now on. Those in the queue are still executed. -/
def shutdown (d : Dispatcher) : Dispatcher :=
  { d with isOpen := false }

end Dispatcher

end DecisionPoint
