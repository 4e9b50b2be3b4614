import DecisionPoint.Proofs.Traffic
import Mathlib.Algebra.GroupWithZero.Nat

/-!
What becomes of the actions. Every action of every call is offered to the queue
once, and counted once as queued or dropped; and every action that was put into
the queue is in it, or with a worker, or was counted when its execution ended.
So whatever the order of turns, once no action is on its way the tallies add up
to the actions of the policies that decided.
-/

namespace DecisionPoint

/-! ## Moves of the dispatcher -/

namespace Tally

theorem count_eq (t : Tally) (e : Execution) :
    (t.count e).queued = t.queued ∧ (t.count e).dropped = t.dropped ∧
      (t.count e).completed = t.completed + 1 := by
  cases e with
  | succeeded => exact ⟨rfl, rfl, Nat.add_right_comm _ _ _⟩
  | failed error => exact ⟨rfl, rfl, rfl⟩
  | crashed => exact ⟨rfl, rfl, rfl⟩

end Tally

namespace Dispatcher

/-- A worker takes the job that has waited longest, where one is free. -/
theorem take?_eq_some {d after : Dispatcher} (h : d.take? = some after) :
    ∃ job rest, d.queue = job :: rest ∧ d.busy.length < d.workers ∧
      after = { d with queue := rest, busy := d.busy ++ [job] } := by
  unfold take? at h
  split at h
  · cases h
  · rename_i job rest hqueue
    split at h
    · rename_i hfree
      exact ⟨job, rest, hqueue, hfree, (Option.some.inj h).symm⟩
    · cases h

/-- An execution that ends is counted once, and only its job leaves the workers. -/
theorem finish?_eq_some {d after : Dispatcher} {i : Nat} {e : Execution} {ended : Job}
    (h : d.finish? i e = some (ended, after)) :
    i < d.busy.length ∧
      after = { d with busy := d.busy.eraseIdx i, tally := d.tally.count e } := by
  unfold finish? at h
  split at h
  · cases h
  · rename_i job hjob
    obtain ⟨hbusy, -⟩ := List.getElem?_eq_some_iff.mp hjob
    cases h
    exact ⟨hbusy, rfl⟩

/-- How many actions an offer that is not counted yet has put into the queue. -/
def put : Option Bool → Nat
  | some true => 1
  | _ => 0

/-- Whether there is room decides whether the queue grows; the tally is left for later. -/
theorem send_eq (d : Dispatcher) (job : Job) :
    (d.send job).tally = d.tally ∧ (d.send job).busy = d.busy ∧
      (d.send job).isOpen = d.isOpen ∧
      (d.send job).queue.length = d.queue.length + put (some d.admits) := by
  unfold send
  cases d.admits with
  | true => simp [put]
  | false => simp [put]

/-- An offer is counted once, as queued or as dropped. -/
theorem note_eq (d : Dispatcher) (admitted : Bool) :
    (d.note admitted).tally.completed = d.tally.completed ∧
      (d.note admitted).tally.queued = d.tally.queued + put (some admitted) ∧
      (d.note admitted).tally.queued + (d.note admitted).tally.dropped =
        d.tally.queued + d.tally.dropped + 1 := by
  cases admitted with
  | true => exact ⟨rfl, rfl, Nat.add_right_comm _ _ _⟩
  | false => exact ⟨rfl, rfl, rfl⟩

/-- Nothing has changed but that the dispatcher may be shut down, or held. -/
structure SameJobs (d after : Dispatcher) : Prop where
  queue : after.queue = d.queue
  busy : after.busy = d.busy
  tally : after.tally = d.tally
  isOpen : d.isOpen = false → after.isOpen = false

theorem SameJobs.refl (d : Dispatcher) : d.SameJobs d :=
  ⟨rfl, rfl, rfl, id⟩

end Dispatcher

namespace Deployment

/-- A dialogue that dispatches nothing leaves the dispatcher alone. -/
theorem hold_dispatcher {x : Dialogue α}
    (h : x.Asks fun question => ∀ actions context, question ≠ .dispatch actions context)
    (d : Deployment) : (d.hold x).state.dispatcher = d.dispatcher :=
  h.run_preserves (P := fun after => after.dispatcher = d.dispatcher)
    (fun _ after hquestion hkept => (collaborators_dispatcher hquestion after).trans hkept) rfl

/-- An event that dispatches nothing leaves the actions where they are. -/
theorem happen_sameJobs (d : Deployment) {e : Event} (hquiet : e.dispatches = false) :
    d.dispatcher.SameJobs (d.happen e).state.dispatcher := by
  have hheld : ∀ {α : Type} {x : Dialogue α} (reply : α → Reply),
      x.Asks (fun question => ∀ actions context, question ≠ .dispatch actions context) →
        d.dispatcher.SameJobs (d.answer x reply).state.dispatcher := by
    intro α x reply hasks
    rw [answer_state, hold_dispatcher hasks]
    exact .refl _
  cases e with
  | record e =>
      cases e with
      | defaultTtl => exact .refl _
      | getDecision r => exact hheld _ (asks_getDecision (by simp) _)
      | putDecision r v => exact hheld _ (asks_write (by simp))
      | getCandidates tenant => exact hheld _ (asks_getCandidates (by simp) _)
      | putCandidates tenant policies cap => exact hheld _ (asks_write (by simp))
      | evictDecision r => exact hheld _ (asks_evictDecision (by simp))
      | evictPolicy resourceType action => exact hheld _ (asks_evictAllUnder (by simp))
      | evictAll => exact hheld _ (asks_evictAll (by simp))
  | policyChanged p => exact hheld _ (asks_evictAll (by simp))
  | cache e =>
      obtain ⟨cache, hstate⟩ := d.happen_cache e
      rw [hstate]
      exact .refl _
  | evaluate r => cases hquiet
  | evaluateText s => cases hquiet
  | evaluateAsync r deadline => cases hquiet
  | evaluateTextAsync s deadline => cases hquiet
  | dispatch actions context => cases hquiet
  | shutdown => exact ⟨rfl, rfl, rfl, fun _ => rfl⟩
  | hold => exact ⟨rfl, rfl, rfl, id⟩
  | release => exact ⟨rfl, rfl, rfl, id⟩
  | _ => exact .refl _

end Deployment

/-! ## The ledger -/

namespace Call

/-- The number of actions of a call that are still to be offered or counted. -/
def outstanding (call : Call) : Nat :=
  call.waiting.length + call.sent.toList.length

/-- The number of actions of a call that were put into the queue and are still to be
counted. -/
def uncounted (call : Call) : Nat :=
  Dispatcher.put call.sent

end Call

namespace Traffic

def tally (f : Traffic) : Tally :=
  f.deployment.dispatcher.tally

/-- The number of actions that were put into the queue, counted or not. -/
def admitted (f : Traffic) : Nat :=
  f.tally.queued + (f.calls.map Call.uncounted).sum

/-- Where all the actions are. -/
structure Ledger (f : Traffic) : Prop where
  offered : f.tally.queued + f.tally.dropped + (f.calls.map Call.outstanding).sum =
    (f.calls.map fun call => (dispatched call.transcript).length).sum
  admitted : f.tally.completed + f.deployment.dispatcher.queue.length +
    f.deployment.dispatcher.busy.length = f.admitted

theorem sum_split (measure : Call → Nat) (front back : List Call) (call : Call) :
    ((front ++ call :: back).map measure).sum =
      (front.map measure).sum + measure call + (back.map measure).sum := by
  rw [List.map_append, List.map_cons, List.sum_append, List.sum_cons, Nat.add_assoc]

/-- No turn loses an action or counts one twice. -/
theorem Ledger.step {f : Traffic} (h : f.Ledger) (t : Turn) : (f.step t).Ledger := by
  obtain ⟨hoffered, hadmitted⟩ := h
  have hmoves := f.step_moves t
  generalize f.step t = g at *
  unfold Traffic.admitted tally at *
  cases hmoves with
  | idle => exact ⟨hoffered, hadmitted⟩
  | begins e dialogue hdialogue =>
      constructor
      · simpa [tally, Call.outstanding, dispatched] using hoffered
      · simpa [tally, Traffic.admitted, Call.uncounted, Dispatcher.put] using hadmitted
  | asks i question next answer after hcalls hwaiting hsent hrest hanswer =>
      -- What is dispatched now is what waits now.
      rw [hcalls] at hoffered hadmitted
      constructor
      · simp only [tally, sum_split, Call.outstanding, dispatched_append, List.length_append,
          hwaiting, hsent] at hoffered ⊢
        simp only [dispatched, List.flatMap_singleton, List.length_nil] at hoffered ⊢
        omega
      · simpa only [tally, Traffic.admitted, sum_split, Call.uncounted] using hadmitted
  | sends i job jobs hcalls hsent hwaiting =>
      obtain ⟨htally, hbusy, -, hqueue⟩ := f.deployment.dispatcher.send_eq job
      rw [hcalls] at hoffered hadmitted
      constructor
      · simp only [tally, htally, sum_split, Call.outstanding, hwaiting, hsent, List.length_cons,
          Option.toList_none, Option.toList_some, List.length_nil] at hoffered ⊢
        omega
      · simp only [tally, htally, hbusy, hqueue, Traffic.admitted, sum_split, Call.uncounted, hsent]
          at hadmitted ⊢
        simp only [Dispatcher.put] at hadmitted ⊢
        omega
  | counts i admitted hcalls hsent =>
      obtain ⟨hcompleted, hqueued, hcounted⟩ := f.deployment.dispatcher.note_eq admitted
      have hqueue : (f.deployment.dispatcher.note admitted).queue =
          f.deployment.dispatcher.queue := rfl
      have hbusy : (f.deployment.dispatcher.note admitted).busy =
          f.deployment.dispatcher.busy := rfl
      rw [hcalls] at hoffered hadmitted
      constructor
      · simp only [tally, sum_split, Call.outstanding, hsent, hcounted, List.length_cons,
          Option.toList_none, Option.toList_some, List.length_nil] at hoffered ⊢
        omega
      · simp only [tally, hcompleted, hqueue, hbusy, hqueued, Traffic.admitted, sum_split,
          Call.uncounted, hsent] at hadmitted ⊢
        simp only [Dispatcher.put] at hadmitted ⊢
        omega
  | takes dispatcher htake =>
      obtain ⟨job, rest, hqueue, -, rfl⟩ := Dispatcher.take?_eq_some htake
      rw [hqueue, List.length_cons] at hadmitted
      refine ⟨hoffered, ?_⟩
      simp only [withDispatcher, tally, Traffic.admitted, List.length_append, List.length_singleton]
      omega
  | finishes i outcome job dispatcher hfinish =>
      obtain ⟨hbusy, rfl⟩ := Dispatcher.finish?_eq_some hfinish
      obtain ⟨hqueued, hdropped, hcompleted⟩ := f.deployment.dispatcher.tally.count_eq outcome
      constructor
      · simp only [withDispatcher, tally, hqueued, hdropped]
        exact hoffered
      · simp only [withDispatcher, tally, Traffic.admitted, hqueued, hcompleted,
          List.length_eraseIdx_of_lt hbusy]
        omega
  | happens e hquiet =>
      have hsame := f.deployment.happen_sameJobs hquiet
      constructor
      · simp only [tally, hsame.tally]
        exact hoffered
      · simp only [tally, Traffic.admitted, hsame.tally, hsame.queue, hsame.busy]
        exact hadmitted

theorem ledger_start (c : Config) (capacity : Nat) (backend : Backend) (clock : Time.Instant)
    (tick : Nat) : (start c capacity backend clock tick).Ledger :=
  ⟨rfl, rfl⟩

theorem ledger_run (c : Config) (capacity : Nat) (backend : Backend) (clock : Time.Instant)
    (tick : Nat) (ts : List Turn) : ((start c capacity backend clock tick).run ts).Ledger :=
  run_induction (ledger_start c capacity backend clock tick) (fun _ t h => h.step t) ts

theorem sound_run (c : Config) (capacity : Nat) (backend : Backend) (clock : Time.Instant)
    (tick : Nat) (ts : List Turn) : ((start c capacity backend clock tick).run ts).Sound c :=
  run_induction ⟨rfl, fun _ h => by cases h⟩ (fun _ t h => h.step t) ts

/-- What was dispatched in sound calls is what is due for them. -/
theorem Sound.sum_dispatched {c : Config} {f : Traffic} (h : f.Sound c) :
    (f.calls.map fun call => (dispatched call.transcript).length).sum =
      (f.calls.map (Call.due c)).sum :=
  congrArg List.sum (List.map_congr_left fun call hcall => (h.calls call hcall).length_dispatched)

/-! ## After a shutdown -/

/-- Once the dispatcher was shut down nothing is put into the queue any more. -/
theorem step_closed {f : Traffic} (h : f.deployment.dispatcher.isOpen = false) (t : Turn) :
    (f.step t).deployment.dispatcher.isOpen = false ∧ (f.step t).admitted = f.admitted := by
  have hmoves := f.step_moves t
  generalize f.step t = g at *
  cases hmoves with
  | idle => exact ⟨h, rfl⟩
  | begins e dialogue hdialogue =>
      refine ⟨h, ?_⟩
      simp [admitted, tally, Call.uncounted, Dispatcher.put]
  | asks i question next answer after hcalls hwaiting hsent hrest hanswer =>
      refine ⟨h, ?_⟩
      simp only [admitted, tally, hcalls, sum_split, Call.uncounted]
  | sends i job jobs hcalls hsent hwaiting =>
      obtain ⟨htally, -, hopen, -⟩ := f.deployment.dispatcher.send_eq job
      have hfull : f.deployment.dispatcher.admits = false := by
        rw [Dispatcher.admits, h, Bool.false_and]
      refine ⟨hopen.trans h, ?_⟩
      simp only [admitted, tally, htally, hcalls, sum_split, Call.uncounted, hsent, hfull,
        Dispatcher.put]
  | counts i admitted hcalls hsent =>
      obtain ⟨-, hqueued, -⟩ := f.deployment.dispatcher.note_eq admitted
      refine ⟨h, ?_⟩
      simp only [Traffic.admitted, tally, hqueued, hcalls, sum_split, Call.uncounted, hsent]
      simp only [Dispatcher.put]
      omega
  | takes dispatcher htake =>
      obtain ⟨job, rest, -, -, rfl⟩ := Dispatcher.take?_eq_some htake
      exact ⟨h, rfl⟩
  | finishes i outcome job dispatcher hfinish =>
      obtain ⟨-, rfl⟩ := Dispatcher.finish?_eq_some hfinish
      obtain ⟨hqueued, -, -⟩ := f.deployment.dispatcher.tally.count_eq outcome
      refine ⟨h, ?_⟩
      simp only [withDispatcher, admitted, tally, hqueued]
  | happens e hquiet =>
      have hsame := f.deployment.happen_sameJobs hquiet
      refine ⟨hsame.isOpen h, ?_⟩
      simp only [admitted, tally, hsame.tally]

theorem run_closed {f : Traffic} (h : f.deployment.dispatcher.isOpen = false) (ts : List Turn) :
    (f.run ts).admitted = f.admitted := by
  have hkept := run_induction (motive := fun g =>
    g.deployment.dispatcher.isOpen = false ∧ g.admitted = f.admitted) ⟨h, rfl⟩
    (fun g t hg => ⟨(step_closed hg.1 t).1, (step_closed hg.1 t).2.trans hg.2⟩) ts
  exact hkept.2

/-! ## When all is done -/

/-- No call is in the middle of handing over its actions. -/
def HandedOver (f : Traffic) : Prop :=
  ∀ call ∈ f.calls, call.isHandingOver = false

theorem HandedOver.outstanding {f : Traffic} (h : f.HandedOver) :
    (f.calls.map Call.outstanding).sum = 0 := by
  apply List.sum_eq_zero_iff_forall_eq_nat.mpr
  intro n hn
  obtain ⟨call, hcall, rfl⟩ := List.mem_map.mp hn
  obtain ⟨hwaiting, hsent⟩ := Call.isHandingOver_iff.mp (h call hcall)
  rw [Call.outstanding, hwaiting, hsent]
  rfl

/-- Between calls the tally counts just what was put into the queue. -/
theorem HandedOver.admitted {f : Traffic} (h : f.HandedOver) : f.admitted = f.tally.queued := by
  have hnone : (f.calls.map Call.uncounted).sum = 0 := by
    apply List.sum_eq_zero_iff_forall_eq_nat.mpr
    intro n hn
    obtain ⟨call, hcall, rfl⟩ := List.mem_map.mp hn
    rw [Call.uncounted, (Call.isHandingOver_iff.mp (h call hcall)).2]
    rfl
  rw [Traffic.admitted, hnone, Nat.add_zero]

/-- No action is on its way: none waits in the queue or is with a worker, and none
is still to be offered or counted. -/
structure AtRest (f : Traffic) : Prop where
  queue : f.deployment.dispatcher.queue = []
  busy : f.deployment.dispatcher.busy = []
  handedOver : f.HandedOver

/-- The tally of what was offered is what is due. -/
theorem tally_offered {c : Config} {f : Traffic} (hledger : f.Ledger) (hsound : f.Sound c)
    (h : f.HandedOver) : f.tally.queued + f.tally.dropped = (f.calls.map (Call.due c)).sum := by
  rw [← hsound.sum_dispatched, ← hledger.offered, h.outstanding, Nat.add_zero]

/-- At any point of a run of calls every action that is due is counted as queued or
dropped, or is still to be offered or counted, and every action put into the queue
is in it, with a worker, or counted as executed or failed. So with no action on its
way the tallies agree. After a shutdown whatever falls due is dropped. And what the
callers get, and what is left in the cache, does not depend on what the workers do
and how executions end. -/
theorem actions_accounted (c : Config) (capacity : Nat) (backend : Backend)
    (clock : Time.Instant) (tick : Nat) :
    (∀ ts, let f := (start c capacity backend clock tick).run ts
      f.tally.queued + f.tally.dropped + (f.calls.map Call.outstanding).sum =
          (f.calls.map (Call.due c)).sum ∧
        f.tally.completed + f.deployment.dispatcher.queue.length +
          f.deployment.dispatcher.busy.length =
            f.tally.queued + (f.calls.map Call.uncounted).sum) ∧
      (∀ ts, let f := (start c capacity backend clock tick).run ts
        f.AtRest → f.tally.queued + f.tally.dropped = (f.calls.map (Call.due c)).sum ∧
          f.tally.executed + f.tally.failed = f.tally.queued) ∧
      (∀ ts us, let f := (start c capacity backend clock tick).run ts
        let g := (start c capacity backend clock tick).run (ts ++ us)
        f.deployment.dispatcher.isOpen = false → f.HandedOver → g.HandedOver →
          g.tally.queued = f.tally.queued ∧
            g.tally.dropped + (f.calls.map (Call.due c)).sum =
              f.tally.dropped + (g.calls.map (Call.due c)).sum) ∧
      ∀ ts us, (ts.filter fun t => !t.isOfWorker) = (us.filter fun t => !t.isOfWorker) →
        let f := (start c capacity backend clock tick).run ts
        let g := (start c capacity backend clock tick).run us
        f.calls.map (Call.reply? c) = g.calls.map (Call.reply? c) ∧
          f.deployment.cache = g.deployment.cache := by
  refine ⟨?_, ?_, ?_, ?_⟩
  · intro ts f
    have hledger := ledger_run c capacity backend clock tick ts
    have hsound := sound_run c capacity backend clock tick ts
    exact ⟨hledger.offered.trans hsound.sum_dispatched, hledger.admitted⟩
  · intro ts f hrest
    have hledger := ledger_run c capacity backend clock tick ts
    have hsound := sound_run c capacity backend clock tick ts
    have hadmitted := hledger.admitted
    rw [hrest.queue, hrest.busy, hrest.handedOver.admitted] at hadmitted
    exact ⟨tally_offered hledger hsound hrest.handedOver, hadmitted⟩
  · intro ts us f g hclosed hbefore hafter
    have hfirst : f.tally.queued + f.tally.dropped = (f.calls.map (Call.due c)).sum :=
      tally_offered (ledger_run c capacity backend clock tick ts)
        (sound_run c capacity backend clock tick ts) hbefore
    have hlast : g.tally.queued + g.tally.dropped = (g.calls.map (Call.due c)).sum :=
      tally_offered (ledger_run c capacity backend clock tick (ts ++ us))
        (sound_run c capacity backend clock tick (ts ++ us)) hafter
    have hqueued : g.tally.queued = f.tally.queued := by
      have hkept := run_closed hclosed us
      rw [← run_append] at hkept
      rw [← hafter.admitted, ← hbefore.admitted]
      exact hkept
    refine ⟨hqueued, ?_⟩
    rw [← hfirst, ← hlast, hqueued]
    omega
  · intro ts us hown f g
    have hsame : f.withoutWorkers = g.withoutWorkers := by
      rw [run_withoutWorkers rfl ts, hown]
      exact (run_withoutWorkers rfl us).symm
    have hreplies : ∀ h : Traffic, h.withoutWorkers.calls.map (Call.reply? c) =
        h.calls.map (Call.reply? c) := by
      intro h
      simp [withoutWorkers, Function.comp_def, Call.reply_withoutWorkers]
    constructor
    · rw [← hreplies f, ← hreplies g, hsame]
    · have hcache := congrArg (fun h : Traffic => h.deployment.cache) hsame
      exact hcache

/-- Settings under which no more than one action waits. -/
def sampleConfig : Config :=
  { Config.standard with queueCapacity := 1, cacheCandidates := false }

def sampleStore : Backend :=
  .memory ⟨[{ Sample.policy with
    effectiveFrom := none
    actions := some "[\x7b\"type\":\"LOG_EVENT\"\x7d]" }], 0⟩

def sampleStart : Traffic :=
  start sampleConfig 4 sampleStore .epoch 0

/-- Two users are decided on at the same time, and for the first one there is a
verdict in the cache when the same is asked again. The second action finds the
queue full, and the first breaks down. -/
def sampleTurns : List Turn :=
  [.begin (.evaluate Sample.request),
    .begin (.evaluate { Sample.request with user := "user-2" })] ++
    List.replicate 6 (.ask 0) ++ [.send 0, .begin (.evaluate Sample.request), .ask 2, .count 0] ++
    List.replicate 6 (.ask 1) ++ [.send 1, .count 1, .take, .finish 0 .crashed]

theorem actions_accounted_sample :
    (sampleStart.run sampleTurns).AtRest ∧
      (sampleStart.run sampleTurns).tally = ⟨1, 0, 1, 1⟩ ∧
      ((sampleStart.run sampleTurns).calls.map (Call.due sampleConfig)).sum = 2 := by
  have hdone : (sampleStart.run sampleTurns).deployment.dispatcher.queue = [] ∧
      (sampleStart.run sampleTurns).deployment.dispatcher.busy = [] ∧
      (∀ call ∈ (sampleStart.run sampleTurns).calls, call.isHandingOver = false) ∧
      (sampleStart.run sampleTurns).tally = ⟨1, 0, 1, 1⟩ := by decide +kernel
  obtain ⟨hqueue, hbusy, hover, htally⟩ := hdone
  have hrest : (sampleStart.run sampleTurns).AtRest := ⟨hqueue, hbusy, hover⟩
  obtain ⟨-, haccounts, -⟩ := actions_accounted sampleConfig 4 sampleStore .epoch 0
  obtain ⟨hsum, -⟩ := haccounts sampleTurns hrest
  change (sampleStart.run sampleTurns).tally.queued + (sampleStart.run sampleTurns).tally.dropped =
    ((sampleStart.run sampleTurns).calls.map (Call.due sampleConfig)).sum at hsum
  rw [htally] at hsum
  exact ⟨hrest, htally, hsum.symm⟩

end Traffic

end DecisionPoint
