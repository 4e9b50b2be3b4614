import DecisionPoint.Proofs.Accounting
import DecisionPoint.Proofs.Ranking
import DecisionPoint.Proofs.Uninterrupted

/-!
Which actions are dispatched, and in which order. Actions come by falling priority, and
those of one priority as they stand; whatever status their document says, they start as
pending. Where the queue has no room for all of them the last ones are dropped, so none
of higher priority than one that was queued. Once nothing holds the workers back, they
execute what they are busy with and then the queue from its front.
-/

namespace DecisionPoint

namespace Action

/-- An action that nothing has been done about yet. -/
def afresh (a : Action) : Action :=
  { a with status := .pending }

end Action

namespace Dispatcher

/-! ## The order of dispatch -/

/-- Actions stand by falling priority, and those of one priority in the order in which
they came; all are pending. -/
structure IsDispatchOrder (actions ordered : List Action) : Prop where
  perm : ordered.Perm (actions.map Action.afresh)
  falling : ordered.Pairwise fun a b => b.priority ≤ a.priority
  stable : ∀ priority, ordered.filter (·.priority == priority) =
    (actions.map Action.afresh).filter (·.priority == priority)

/-- Whether an action is dispatched no later than another one. -/
def precedes (a b : Action) : Bool :=
  b.priority ≤ a.priority

/-- Sorting by priority keeps actions of one priority in the order in which they came. -/
theorem isDispatchOrder_inOrder (actions : List Action) :
    IsDispatchOrder actions (inOrder actions) := by
  have hranking := isRanking_mergeSort Action.priority actions
  constructor
  · exact hranking.perm.map Action.afresh
  · exact List.pairwise_map.mpr hranking.falling
  · intro priority
    rw [inOrder, List.filter_map, List.filter_map]
    exact congrArg (List.map Action.afresh) (hranking.stable priority)

/-- The actions of a call as jobs, in the order of dispatch. -/
def jobsOf (actions : List Action) (context : ActionContext) : List Job :=
  (inOrder actions).map (Job.mk · context)

theorem pending_of_mem_jobsOf {actions : List Action} {context : ActionContext} {job : Job}
    (h : job ∈ jobsOf actions context) : job.action.status = .pending := by
  obtain ⟨a, ha, rfl⟩ := List.mem_map.mp h
  obtain ⟨b, -, rfl⟩ := List.mem_map.mp ((isDispatchOrder_inOrder actions).perm.mem_iff.mp ha)
  rfl

/-- What stands behind a place in the order of dispatch has no higher priority than what
stands before it. -/
theorem priority_le_of_mem_drop {actions : List Action} {context : ActionContext} {n : Nat}
    {first last : Job} (hfirst : first ∈ (jobsOf actions context).take n)
    (hlast : last ∈ (jobsOf actions context).drop n) :
    last.action.priority ≤ first.action.priority := by
  have hfalling : (jobsOf actions context).Pairwise
      fun a b => b.action.priority ≤ a.action.priority :=
    List.pairwise_map.mpr (isDispatchOrder_inOrder actions).falling
  rw [← List.take_append_drop n (jobsOf actions context)] at hfalling
  exact (List.pairwise_append.mp hfalling).2.2 first hfirst last hlast

/-- A dispatch fills the places that are left and drops what comes after. -/
theorem dispatch_eq (d : Dispatcher) (actions : List Action) (context : ActionContext) :
    (d.dispatch actions context).queue = d.queue ++ (jobsOf actions context).take d.free ∧
      (d.dispatch actions context).tally.dropped =
        d.tally.dropped + ((jobsOf actions context).drop d.free).length := by
  simp only [dispatch_eq_offers, offers_eq, List.length_take, List.length_drop, jobsOf, true_and]
  omega

/-- An offer is put into the queue or counted, and changes nothing else. -/
theorem offer_eq (d : Dispatcher) (job : Job) :
    d.offer job = { d with
      queue := d.queue ++ if d.admits then [job] else []
      tally := (d.offer job).tally } := by
  cases hroom : d.admits with
  | true => simp [offer, send, note, hroom]
  | false => simp [offer, send, note, hroom]

/-- An offer does not make the queue longer than its capacity. -/
theorem length_offer_le {d : Dispatcher} (h : d.queue.length ≤ d.capacity) (job : Job) :
    (d.offer job).queue.length ≤ d.capacity := by
  rw [offer_eq]
  cases hroom : d.admits with
  | true =>
      rw [admits, Bool.and_eq_true, decide_eq_true_eq] at hroom
      simp only [if_true, List.length_append, List.length_singleton]
      omega
  | false => simpa using h

/-! ## The moves of the workers -/

theorem finish?_of_busy {d : Dispatcher} {i : Nat} {job : Job} (h : d.busy[i]? = some job)
    (e : Execution) :
    d.finish? i e = some ({ job with action.status := job.action.status.transition e.status },
      { d with busy := d.busy.eraseIdx i, tally := d.tally.count e }) := by
  simp only [finish?, h]

/-- With enough moves the workers execute all that is queued, in the order of the queue,
each action once. -/
theorem run_eq (executor : Executor) {n : Nat} {d : Dispatcher} (hmoves : d.movesLeft = n)
    (hfree : d.isHeld = false) (hworkers : 0 < d.workers) :
    run executor n d = (d.busy ++ d.queue, { d with
      queue := []
      busy := []
      tally := (d.busy ++ d.queue).foldl (fun t job => t.count (executor job)) d.tally }) := by
  induction n generalizing d with
  | zero =>
      obtain ⟨hqueue, hbusy⟩ : d.queue = [] ∧ d.busy = [] := by
        rw [← List.length_eq_zero_iff, ← List.length_eq_zero_iff]
        simp only [movesLeft] at hmoves
        omega
      obtain ⟨workers, capacity, isOpen, isHeld, queue, busy, tally⟩ := d
      cases hqueue
      cases hbusy
      rfl
  | succ n ih =>
      rw [run]
      cases htake : d.take? with
      | some after =>
          obtain ⟨job, rest, hqueue, -, rfl⟩ := take?_eq_some htake
          have hleft : movesLeft { d with queue := rest, busy := d.busy ++ [job] } = n := by
            simp only [movesLeft, hqueue, List.length_cons, List.length_append,
              List.length_nil] at hmoves ⊢
            omega
          have hrest := ih hleft hfree hworkers
          simp only [hrest, hqueue, List.append_assoc, List.singleton_append]
      | none =>
          cases hbusy : d.busy with
          | nil =>
              cases hqueue : d.queue with
              | nil => simp [movesLeft, hqueue, hbusy] at hmoves
              | cons job rest => simp [take?, hqueue, hbusy, hworkers] at htake
          | cons job rest =>
              have hfirst : d.busy[0]? = some job := by rw [hbusy]; rfl
              have hleft : movesLeft { d with
                  busy := d.busy.eraseIdx 0
                  tally := d.tally.count (executor job) } = n := by
                simp only [movesLeft, hbusy, List.eraseIdx_zero, List.tail_cons,
                  List.length_cons] at hmoves ⊢
                omega
              have hrest := ih hleft hfree hworkers
              simp only [hfree, hbusy, List.eraseIdx_zero, List.tail_cons] at hrest
              simp only [hfree, finish?_of_busy hfirst]
              simp only [hbusy, List.eraseIdx_zero, List.tail_cons, hrest, List.cons_append,
                List.foldl_cons]

/-- Once nothing holds the workers back, they execute what they are busy with and then
the queue, each action once and in this order. -/
theorem settle_eq (executor : Executor) {d : Dispatcher} (hfree : d.isHeld = false)
    (hworkers : 0 < d.workers) :
    d.settle executor = (d.busy ++ d.queue, { d with
      queue := []
      busy := []
      tally := (d.busy ++ d.queue).foldl (fun t job => t.count (executor job)) d.tally }) :=
  run_eq executor rfl hfree hworkers

end Dispatcher

end DecisionPoint
