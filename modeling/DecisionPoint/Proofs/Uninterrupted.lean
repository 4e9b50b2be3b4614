import DecisionPoint.Proofs.Traffic

/-!
Calls that nothing comes between. Offering actions one by one puts the same ones
into the queue as dispatching them at once. So a call that takes its turns without
a break goes as the event of a session goes, and the moves that the workers make
after an event are turns too: what a session does is one of the ways in which calls
may come about.
-/

namespace DecisionPoint

namespace Dispatcher

def free (d : Dispatcher) : Nat :=
  if d.isOpen then d.capacity - d.queue.length else 0

theorem offer_of_room {d : Dispatcher} (h : d.admits = true) (job : Job) :
    d.offer job = { d with
        queue := d.queue ++ [job]
        tally := { d.tally with queued := d.tally.queued + 1 } } ∧
      d.free = (d.offer job).free + 1 := by
  have hoffer : d.offer job = { d with
      queue := d.queue ++ [job]
      tally := { d.tally with queued := d.tally.queued + 1 } } := by
    simp [offer, send, note, h]
  obtain ⟨hopen, hroom⟩ : d.isOpen = true ∧ d.queue.length < d.capacity := by
    simpa [admits] using h
  refine ⟨hoffer, ?_⟩
  rw [hoffer]
  simp only [free, hopen, if_true, List.length_append, List.length_singleton]
  omega

theorem offer_of_full {d : Dispatcher} (h : d.admits = false) (job : Job) :
    d.offer job = { d with tally := { d.tally with dropped := d.tally.dropped + 1 } } ∧
      d.free = 0 := by
  constructor
  · simp [offer, send, note, h]
  · unfold free
    cases hopen : d.isOpen with
    | false => rfl
    | true =>
        have hfull : d.capacity ≤ d.queue.length := by simpa [admits, hopen] using h
        exact Nat.sub_eq_zero_of_le hfull

/-- What becomes of actions that are offered one after the other. -/
theorem offers_eq (d : Dispatcher) (jobs : List Job) :
    jobs.foldl offer d = { d with
      queue := d.queue ++ jobs.take d.free
      tally := { d.tally with
        queued := d.tally.queued + (jobs.take d.free).length
        dropped := d.tally.dropped + (jobs.length - (jobs.take d.free).length) } } := by
  induction jobs generalizing d with
  | nil => simp
  | cons job jobs ih =>
      rw [List.foldl_cons, ih]
      cases hroom : d.admits with
      | true =>
          obtain ⟨hoffer, hfree⟩ := offer_of_room hroom job
          rw [hfree, List.take_succ_cons]
          generalize (d.offer job).free = left at *
          rw [hoffer]
          simp only [List.append_assoc, List.singleton_append, List.length_cons,
            Nat.add_sub_add_right]
          congr 2
          omega
      | false =>
          obtain ⟨hoffer, hfree⟩ := offer_of_full hroom job
          have hnone : (d.offer job).free = 0 := by
            rw [hoffer]
            exact hfree
          rw [hfree, hnone, hoffer]
          simp only [List.take_zero, List.length_nil, List.length_cons, Nat.sub_zero]
          congr 2
          omega

/-- Dispatching actions is offering them one after the other. -/
theorem dispatch_eq_offers (d : Dispatcher) (actions : List Action) (context : ActionContext) :
    d.dispatch actions context =
      ((inOrder actions).map (Job.mk · context)).foldl offer d := by
  rw [offers_eq]
  rfl

end Dispatcher

/-! ## One call -/

/-- An answer leaves the state that the actions leave when they are offered one by
one. -/
theorem Deployment.collaborators_offers (question : Question) (d : Deployment) :
    { (collaborators question d).2 with
      dispatcher := (Exchange.jobs ⟨question, (collaborators question d).1⟩).foldl
        Dispatcher.offer d.dispatcher } = (collaborators question d).2 := by
  by_cases hdispatch : ∃ actions context, question = .dispatch actions context
  · obtain ⟨actions, context, rfl⟩ := hdispatch
    simp only [collaborators, Exchange.jobs, Dispatcher.dispatch_eq_offers]
  · have hother : ∀ actions context, question ≠ .dispatch actions context :=
      fun actions context h => hdispatch ⟨actions, context, h⟩
    have hjobs : ∀ answer, Exchange.jobs ⟨question, answer⟩ = [] := by
      intro answer
      cases question with
      | dispatch actions context => exact absurd rfl (hother actions context)
      | _ => rfl
    rw [hjobs, List.foldl_nil, ← collaborators_dispatcher hother]

def Turn.isOf (i : Nat) : Turn → Bool
  | .ask j => j == i
  | .send j => j == i
  | .count j => j == i
  | _ => false

namespace Traffic

theorem move_last (d : Deployment) (calls : List Call) (call : Call)
    (act : Call → Deployment → Call × Deployment) :
    (Traffic.mk d (calls ++ [call])).move calls.length act =
      ⟨(act call d).2, calls ++ [(act call d).1]⟩ := by
  simp [move]

def Reaches (kind : Turn → Bool) (f g : Traffic) : Prop :=
  ∃ ts, (∀ t ∈ ts, kind t = true) ∧ f.run ts = g

section Reaches

variable {kind : Turn → Bool} {f g h : Traffic}

theorem Reaches.refl (kind : Turn → Bool) (f : Traffic) : Reaches kind f f := by
  refine ⟨[], ?_, rfl⟩
  intro t ht
  cases ht

theorem Reaches.trans (hfirst : Reaches kind f g) (hrest : Reaches kind g h) :
    Reaches kind f h := by
  obtain ⟨ts, hts, rfl⟩ := hfirst
  obtain ⟨us, hus, rfl⟩ := hrest
  refine ⟨ts ++ us, ?_, f.run_append ts us⟩
  intro t ht
  exact (List.mem_append.mp ht).elim (hts t) (hus t)

theorem reaches_step (f : Traffic) {t : Turn} (ht : kind t = true) :
    Reaches kind f (f.step t) := by
  refine ⟨[t], ?_, rfl⟩
  intro u hu
  rw [List.mem_singleton.mp hu]
  exact ht

theorem Reaches.mono {wide : Turn → Bool} (hreaches : Reaches kind f g)
    (hwide : ∀ t, kind t = true → wide t = true) : Reaches wide f g := by
  obtain ⟨ts, hts, hrun⟩ := hreaches
  exact ⟨ts, fun t ht => hwide t (hts t ht), hrun⟩

end Reaches

/-- A call hands over the actions that wait. -/
theorem reaches_handedOver (d : Deployment) (calls : List Call) (jobs : List Job) {call : Call}
    (hsent : call.sent = none) (hlatest : call.latest = d.elapsed) :
    Reaches (Turn.isOf calls.length) ⟨d, calls ++ [{ call with waiting := jobs }]⟩
      ⟨{ d with dispatcher := jobs.foldl Dispatcher.offer d.dispatcher },
        calls ++ [{ call with waiting := [] }]⟩ := by
  induction jobs generalizing d with
  | nil => exact .refl _ _
  | cons job jobs ih =>
      have hoffered : ((Traffic.mk d (calls ++ [{ call with waiting := job :: jobs }])).step
          (.send calls.length)).step (.count calls.length) =
            ⟨{ d with dispatcher := d.dispatcher.offer job },
              calls ++ [{ call with waiting := jobs }]⟩ := by
        simp only [step, move_last, Call.send, Call.count, hsent, ← hlatest]
        rw [← hsent]
        rfl
      have hfirst : Reaches (Turn.isOf calls.length)
          ⟨d, calls ++ [{ call with waiting := job :: jobs }]⟩
          ⟨{ d with dispatcher := d.dispatcher.offer job },
            calls ++ [{ call with waiting := jobs }]⟩ := by
        rw [← hoffered]
        exact (reaches_step _ (by simp [Turn.isOf])).trans (reaches_step _ (by simp [Turn.isOf]))
      exact hfirst.trans (ih { d with dispatcher := d.dispatcher.offer job } hlatest)

/-- A call that nothing comes between holds its dialogue as it is held at once. -/
theorem reaches_held (d : Deployment) (calls : List Call)
    (x : Dialogue (Except EngineError Verdict)) {call : Call} (hrest : call.rest = some x)
    (hwaiting : call.waiting = []) (hsent : call.sent = none) (hlatest : call.latest = d.elapsed) :
    Reaches (Turn.isOf calls.length) ⟨d, calls ++ [call]⟩
      ⟨(d.hold x).state, calls ++ [{ call with
        rest := (d.hold x).result.map .done
        transcript := call.transcript ++ (d.hold x).transcript
        latest := (d.hold x).state.elapsed }]⟩ := by
  induction x generalizing d call with
  | done result =>
      have hsame : { call with
          rest := some (.done result)
          transcript := call.transcript ++ []
          latest := d.elapsed } = call := by
        rw [← hrest, List.append_nil, ← hlatest]
      change Reaches _ _ ⟨d, calls ++ [{ call with
        rest := some (.done result)
        transcript := call.transcript ++ []
        latest := d.elapsed }]⟩
      rw [hsame]
      exact .refl _ _
  | ask question next ih =>
      have hready := Call.isHandingOver_iff.mpr ⟨hwaiting, hsent⟩
      have hoffers := Deployment.collaborators_offers question d
      have hasked : (Traffic.mk d (calls ++ [call])).step (.ask calls.length) =
          ⟨{ (Deployment.collaborators question d).2 with dispatcher := d.dispatcher },
            calls ++ [{ call with
              rest := (Deployment.collaborators question d).1.map next
              transcript :=
                call.transcript ++ [⟨question, (Deployment.collaborators question d).1⟩]
              waiting := Exchange.jobs ⟨question, (Deployment.collaborators question d).1⟩
              latest := (Deployment.collaborators question d).2.elapsed }]⟩ := by
        simp only [step, move_last, Call.ask, hready, hrest]
      have hfirst : Reaches (Turn.isOf calls.length) ⟨d, calls ++ [call]⟩
          ((Traffic.mk d (calls ++ [call])).step (.ask calls.length)) :=
        reaches_step _ (by simp [Turn.isOf])
      rw [hasked] at hfirst
      simp only [Deployment.hold, Dialogue.run]
      generalize Deployment.collaborators question d = asked at *
      obtain ⟨answer, after⟩ := asked
      have hhanded := @reaches_handedOver { after with dispatcher := d.dispatcher } calls
        (Exchange.jobs ⟨question, answer⟩) { call with
          rest := answer.map next
          transcript := call.transcript ++ [⟨question, answer⟩]
          latest := after.elapsed } hsent rfl
      change Reaches _ _ ⟨{ after with
        dispatcher := (Exchange.jobs ⟨question, answer⟩).foldl Dispatcher.offer d.dispatcher },
          _⟩ at hhanded
      rw [hoffers] at hhanded
      cases answer with
      | none =>
          rw [← hwaiting] at hhanded
          exact hfirst.trans hhanded
      | some answer =>
          have hrest := @ih answer after { call with
            rest := some (next answer)
            transcript := call.transcript ++ [⟨question, some answer⟩]
            waiting := []
            latest := after.elapsed } rfl rfl hsent rfl
          have hwhole := hfirst.trans (hhanded.trans hrest)
          rw [← hwaiting] at hwhole
          simpa only [List.append_assoc, List.singleton_append, Deployment.hold] using hwhole

end Traffic

namespace Deployment

/-- The course of an evaluation for a caller who waits up to a deadline. -/
def awaitedCourse (d : Deployment) (deadline : Option Nat)
    (course : Course (Except EngineError Verdict) Deployment) :
    Course (Except EngineError Verdict) Deployment :=
  { course with
    result := some (awaited (deadline.getD d.config.storeBudget)
      (course.state.elapsed - d.elapsed) course.result) }

/-- What is refused at once is refused in good time. -/
theorem awaitedCourse_refused (d : Deployment) (deadline : Option Nat) (e : EngineError) :
    d.awaitedCourse deadline ⟨some (.error e), [], d⟩ = ⟨some (.error e), [], d⟩ := by
  simp [awaitedCourse, awaited]

/-- Waiting changes what the caller gets, and nothing about the evaluation. -/
theorem evaluateAsync_eq (d : Deployment) (deadline : Option Nat) (r : Request) :
    d.evaluateAsync deadline r =
      d.awaitedCourse deadline (d.hold (Engine.evaluate d.config r)) := by
  cases hdefect : r.defect? with
  | none =>
      simp only [evaluateAsync, hdefect, awaitedCourse]
  | some cause =>
      have hunfit := d.evaluation_invalid hdefect
      rw [evaluation] at hunfit
      simp only [evaluateAsync, hdefect, hunfit, awaitedCourse_refused]

theorem evaluateTextAsync_eq (d : Deployment) (deadline : Option Nat) (s : String) :
    d.evaluateTextAsync deadline s =
      d.awaitedCourse deadline (d.hold (Engine.evaluateText d.config s)) := by
  cases hread : Request.ofText s with
  | error e =>
      simp only [evaluateTextAsync, Engine.evaluateText, hread]
      exact (d.awaitedCourse_refused deadline e).symm
  | ok r =>
      simp only [evaluateTextAsync, Engine.evaluateText, hread]
      exact d.evaluateAsync_eq deadline r

/-- What an event answers is what a caller gets for the dialogue of the event. -/
theorem happen_dialogue (d : Deployment) {e : Event}
    {dialogue : Dialogue (Except EngineError Verdict)}
    (h : e.dialogue? d.config = some dialogue) :
    (d.happen e).state = (d.hold dialogue).state ∧
      (d.happen e).transcript = (d.hold dialogue).transcript ∧
      (d.happen e).result.getD .crashed =
        e.replyWith d.config ((d.hold dialogue).state.elapsed - d.elapsed)
          (d.hold dialogue).result := by
  have hnow : ∀ result : Option (Except EngineError Verdict),
      (result.map Reply.evaluation).getD .crashed = result.elim .crashed .evaluation := by
    intro result
    cases result with
    | none => rfl
    | some outcome => rfl
  cases e with
  | evaluate r =>
      obtain rfl := Option.some.inj h
      simp only [happen, answer, Event.replyWith, hnow, and_self]
  | evaluateText s =>
      obtain rfl := Option.some.inj h
      simp only [happen, answer, Event.replyWith, hnow, and_self]
  | evaluateAsync r deadline =>
      obtain rfl := Option.some.inj h
      simp [happen, evaluateAsync_eq, Event.replyWith, awaitedCourse]
  | evaluateTextAsync s deadline =>
      obtain rfl := Option.some.inj h
      simp [happen, evaluateTextAsync_eq, Event.replyWith, awaitedCourse]
  | _ => cases h

end Deployment

namespace Traffic

theorem dialogue?_isSome (c : Config) (e : Event) :
    (e.dialogue? c).isSome = e.isEvaluation := by
  cases e <;> rfl

/-- A call that nothing comes between goes as its event goes: it leaves the same
state, has asked the same, and the caller gets the same. -/
theorem evaluation_is_run (d : Deployment) (calls : List Call) {e : Event}
    (h : e.isEvaluation = true) :
    ∃ call, Reaches (fun t => !t.isOfWorker) ⟨d, calls⟩
        ⟨(d.happen e).state, calls ++ [call]⟩ ∧
      call.event = e ∧ call.transcript = (d.happen e).transcript ∧
      call.reply? d.config = some ((d.happen e).result.getD .crashed) := by
  obtain ⟨dialogue, hdialogue⟩ :=
    Option.isSome_iff_exists.mp ((dialogue?_isSome d.config e).trans h)
  obtain ⟨hstate, htranscript, hreply⟩ := d.happen_dialogue hdialogue
  have hbegun : (Traffic.mk d calls).step (.begin e) =
      ⟨d, calls ++ [⟨e, some dialogue, [], [], none, d.elapsed, d.elapsed⟩]⟩ := by
    simp only [step, hdialogue]
    rfl
  have hbegins : Reaches (fun t => !t.isOfWorker) ⟨d, calls⟩
      ((Traffic.mk d calls).step (.begin e)) := reaches_step _ rfl
  rw [hbegun] at hbegins
  have hheld := @reaches_held d calls dialogue
    ⟨e, some dialogue, [], [], none, d.elapsed, d.elapsed⟩ rfl rfl rfl rfl
  have hown : ∀ t, Turn.isOf calls.length t = true → (!t.isOfWorker) = true := by
    intro t ht
    cases t with
    | take => cases ht
    | finish i outcome => cases ht
    | _ => rfl
  rw [hstate, htranscript, hreply]
  refine ⟨_, hbegins.trans (hheld.mono hown), rfl, rfl, ?_⟩
  cases (d.hold dialogue).result with
  | none => rfl
  | some outcome => rfl

/-! ## Sessions -/

theorem reaches_withDispatcher {d : Deployment} {calls : List Call} {t : Turn}
    {after : Dispatcher} (ht : t.isOfWorker = true)
    (hstep : (Traffic.mk d calls).step t = (Traffic.mk d calls).withDispatcher after) :
    Reaches Turn.isOfWorker ⟨d, calls⟩ ⟨{ d with dispatcher := after }, calls⟩ := by
  have hfirst := reaches_step (Traffic.mk d calls) ht
  rw [hstep] at hfirst
  exact hfirst

/-- The moves that the workers make after an event are turns. -/
theorem reaches_run (executor : Executor) (calls : List Call) (n : Nat) (d : Deployment) :
    Reaches Turn.isOfWorker ⟨d, calls⟩
      ⟨{ d with dispatcher := (d.dispatcher.run executor n).2 }, calls⟩ := by
  induction n generalizing d with
  | zero => exact .refl _ _
  | succ n ih =>
      simp only [Dispatcher.run]
      cases htake : d.dispatcher.take? with
      | some after =>
          have hfirst := @reaches_withDispatcher d calls .take after rfl (by simp [step, htake])
          exact hfirst.trans (ih { d with dispatcher := after })
      | none =>
          cases hheld : d.dispatcher.isHeld with
          | true => exact .refl _ _
          | false =>
              cases hbusy : d.dispatcher.busy with
              | nil => exact .refl _ _
              | cons job rest =>
                  cases hfinish : d.dispatcher.finish? 0 (executor job) with
                  | none =>
                      simp only [hfinish]
                      exact .refl _ _
                  | some ended =>
                      simp only [hfinish]
                      have hfirst := @reaches_withDispatcher d calls (.finish 0 (executor job))
                        ended.2 rfl (by simp [step, hfinish])
                      exact hfirst.trans (ih { d with dispatcher := ended.2 })

/-- Any state that a session comes to without dispatching actions past the engine is
one that calls and turns of the workers come to. -/
theorem after_is_run (executor : Executor) {es : List Event}
    (h : ∀ e ∈ es, ∀ actions context, e ≠ .dispatch actions context) (f : Traffic) :
    ∃ ts, (f.run ts).deployment = f.deployment.after executor es := by
  induction es generalizing f with
  | nil => exact ⟨[], rfl⟩
  | cons e es ih =>
      have hhappens : ∃ ts calls, f.run ts = ⟨(f.deployment.happen e).state, calls⟩ := by
        cases hevaluates : e.isEvaluation with
        | true =>
            obtain ⟨call, ⟨ts, -, hrun⟩, -⟩ := evaluation_is_run f.deployment f.calls hevaluates
            exact ⟨ts, _, hrun⟩
        | false =>
            have hquiet : e.dispatches = false := by
              cases e with
              | dispatch actions context => exact absurd rfl (h _ List.mem_cons_self _ _)
              | _ => exact hevaluates
            refine ⟨[.other e], f.calls, ?_⟩
            simp [run, step, hquiet]
      obtain ⟨ts, calls, hrun⟩ := hhappens
      obtain ⟨us, -, hsettled⟩ := reaches_run executor calls
        (f.deployment.happen e).state.dispatcher.movesLeft (f.deployment.happen e).state
      obtain ⟨vs, hrest⟩ := ih (fun e' he' => h e' (List.mem_cons_of_mem _ he'))
        ⟨(f.deployment.step executor e).state, calls⟩
      refine ⟨ts ++ us ++ vs, ?_⟩
      rw [run_append, run_append, hrun, hsettled]
      exact hrest

end Traffic

end DecisionPoint
