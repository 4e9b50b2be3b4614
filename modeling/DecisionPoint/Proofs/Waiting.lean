import DecisionPoint.Proofs.Engine
import DecisionPoint.Proofs.Failure

/-!
Callers who wait up to a deadline. The evaluation runs on its own: it asks its
next question when it comes to it, time passes, and now and then the caller
looks. A caller who finds the evaluation over takes its result, however late;
one who finds it under way after the deadline leaves with a time-out. It runs on
either way, so what it asks and what it leaves behind are what they are where
nobody waits.
-/

namespace DecisionPoint

/-- An evaluation and its caller: what is left of the dialogue unless a
collaborator broke down, what was asked so far, the state of the collaborators,
the time since the start, and what the caller got. -/
structure Waiting (σ : Type) where
  rest : Option (Dialogue (Except EngineError Verdict))
  transcript : List Exchange
  state : σ
  spent : Nat
  reply : Option (Except EngineError Verdict)

namespace Waiting

variable {σ : Type}

/-- What may come next: the evaluation asks a question, time passes, or the caller
looks. -/
inductive Turn where
  | work
  | pass (span : Nat)
  | look

def Turn.isWork : Turn → Bool
  | .work => true
  | _ => false

/-- The time-out at a deadline, which counts as having taken just as long. -/
def overrun (deadline : Nat) : Except EngineError Verdict :=
  .error (.storeTimeout (deadline / 1000000) (deadline / 1000000))

/-- A request is handed over. The caller of an unfit one has an answer at once. -/
def start (c : Config) (r : Request) (s : σ) : Waiting σ where
  rest := some (Engine.evaluate c r)
  transcript := []
  state := s
  spent := 0
  reply := r.defect?.map fun cause => .error (.invalidRequest cause)

def outcome? (w : Waiting σ) : Option (Except EngineError Verdict) :=
  match w.rest with
  | none => some (.error .aborted)
  | some (.done result) => some result
  | some (.ask _ _) => none

def isOver (w : Waiting σ) : Bool :=
  w.outcome?.isSome

def work (collaborators : Collaborators σ) (w : Waiting σ) : Waiting σ :=
  match w.rest with
  | some (.ask question next) =>
    let (answer, state) := collaborators question w.state
    { w with rest := answer.map next, transcript := w.transcript ++ [⟨question, answer⟩], state }
  | _ => w

/-- Lets the caller look. A result goes before a time-out, and what the caller got
stays. -/
def look (deadline : Nat) (w : Waiting σ) : Waiting σ :=
  let late := if deadline ≤ w.spent then some (overrun deadline) else none
  { w with reply := w.reply.or (w.outcome?.or late) }

section Runs

variable (collaborators : Collaborators σ) (deadline : Nat)

def step (w : Waiting σ) : Turn → Waiting σ
  | .work => w.work collaborators
  | .pass span => { w with spent := w.spent + span }
  | .look => w.look deadline

def run (w : Waiting σ) (ts : List Turn) : Waiting σ :=
  ts.foldl (step collaborators deadline) w

/-- The course of the whole dialogue: what was asked, and what will be. -/
def whole (w : Waiting σ) : Course (Except EngineError Verdict) σ :=
  match w.rest with
  | none => ⟨none, w.transcript, w.state⟩
  | some rest =>
    let course := rest.run collaborators w.state
    { course with transcript := w.transcript ++ course.transcript }

theorem whole_new (x : Dialogue (Except EngineError Verdict)) (s : σ) (spent : Nat)
    (reply : Option (Except EngineError Verdict)) :
    (Waiting.mk (some x) [] s spent reply).whole collaborators = x.run collaborators s :=
  rfl

/-! ## What a turn does -/

variable {collaborators deadline} {w : Waiting σ}

/-- Work uncovers the course of the dialogue and does not change it. -/
theorem whole_work : (w.work collaborators).whole collaborators = w.whole collaborators := by
  obtain ⟨rest, transcript, state, spent, reply⟩ := w
  match rest with
  | none => rfl
  | some (.done result) => rfl
  | some (.ask question next) =>
      simp only [work, whole, Dialogue.run]
      cases collaborators question state with
      | mk answer after =>
        cases answer with
        | none => rfl
        | some answer => simp

/-- No turn changes the course of the dialogue. -/
theorem whole_step (t : Turn) :
    (w.step collaborators deadline t).whole collaborators = w.whole collaborators := by
  cases t with
  | work => exact whole_work
  | pass span => rfl
  | look => rfl

theorem caller_work (collaborators : Collaborators σ) (w : Waiting σ) :
    (w.work collaborators).reply = w.reply ∧ (w.work collaborators).spent = w.spent := by
  rw [work]
  split <;> exact ⟨rfl, rfl⟩

/-- A caller who has an answer keeps it. -/
theorem reply_step {o : Except EngineError Verdict} (h : w.reply = some o) (t : Turn) :
    (w.step collaborators deadline t).reply = some o := by
  cases t with
  | work => exact (caller_work collaborators w).1.trans h
  | pass span => exact h
  | look => rw [step, look, h, Option.some_or]

theorem isOver_work (h : w.isOver = true) : w.work collaborators = w := by
  obtain ⟨rest, transcript, state, spent, reply⟩ := w
  match rest with
  | none => rfl
  | some (.done result) => rfl
  | some (.ask question next) => cases h

theorem length_work (h : w.isOver = false) :
    (w.work collaborators).transcript.length = w.transcript.length + 1 := by
  obtain ⟨rest, transcript, state, spent, reply⟩ := w
  match rest with
  | none => cases h
  | some (.done result) => cases h
  | some (.ask question next) => simp [work]

theorem isOver_step (h : w.isOver = true) (t : Turn) :
    (w.step collaborators deadline t).isOver = true := by
  cases t with
  | work =>
      rw [step, isOver_work h]
      exact h
  | pass span => exact h
  | look => exact h

/-- An evaluation that is over has run its whole course. -/
theorem whole_of_isOver (collaborators : Collaborators σ) (h : w.isOver = true) :
    (w.whole collaborators).transcript = w.transcript ∧
      (w.whole collaborators).state = w.state ∧
      w.outcome? = some ((w.whole collaborators).result.getD (.error .aborted)) := by
  obtain ⟨rest, transcript, state, spent, reply⟩ := w
  match rest with
  | none => exact ⟨rfl, rfl, rfl⟩
  | some (.done result) => exact ⟨List.append_nil _, rfl, rfl⟩
  | some (.ask question next) => cases h

/-- An evaluation that is not over has something left to ask. -/
theorem length_lt_whole (collaborators : Collaborators σ) (h : w.isOver = false) :
    w.transcript.length < (w.whole collaborators).transcript.length := by
  obtain ⟨rest, transcript, state, spent, reply⟩ := w
  match rest with
  | none => cases h
  | some (.done result) => cases h
  | some (.ask question next) =>
      simp only [whole, Dialogue.run]
      cases collaborators question state with
      | mk answer after => cases answer <;> simp

/-- A caller who looks at an evaluation that is over, or after the deadline, has an
answer then. -/
theorem reply_look (h : w.isOver = true ∨ deadline ≤ w.spent) :
    (w.step collaborators deadline .look).reply.isSome = true := by
  simp only [step, look, Option.isSome_or]
  rcases h with hover | hlate
  · rw [isOver] at hover
    simp [hover]
  · simp [hlate]

theorem look_over {o : Except EngineError Verdict} (hreply : w.reply = none)
    (h : w.outcome? = some o) : (w.step collaborators deadline .look).reply = some o := by
  simp [step, look, hreply, h]

theorem look_late (hreply : w.reply = none) (hover : w.isOver = false)
    (hlate : deadline ≤ w.spent) :
    (w.step collaborators deadline .look).reply = some (overrun deadline) := by
  have houtcome : w.outcome? = none := by simpa [isOver] using hover
  simp [step, look, hreply, houtcome, hlate]

/-! ## Any number of turns -/

/-- What holds of an evaluation under way and its caller: the course of the dialogue
is settled, and what the caller got is its result or a time-out that is due. -/
structure Follows (collaborators : Collaborators σ) (deadline : Nat)
    (course : Course (Except EngineError Verdict) σ) (w : Waiting σ) : Prop where
  whole : w.whole collaborators = course
  reply : ∀ o, w.reply = some o →
    o = course.result.getD (.error .aborted) ∨ (o = overrun deadline ∧ deadline ≤ w.spent)

variable {course : Course (Except EngineError Verdict) σ}

/-- No turn leads away from the course. -/
theorem Follows.step (h : Follows collaborators deadline course w) (t : Turn) :
    Follows collaborators deadline course (w.step collaborators deadline t) := by
  refine ⟨(whole_step t).trans h.whole, ?_⟩
  cases t with
  | work =>
      obtain ⟨hreply, hspent⟩ := caller_work collaborators w
      rw [Waiting.step, hreply, hspent]
      exact h.reply
  | pass span =>
      intro o ho
      exact (h.reply o ho).imp_right fun ⟨hlate, hdue⟩ =>
        ⟨hlate, Nat.le_trans hdue (Nat.le_add_right _ _)⟩
  | look =>
      intro o ho
      rcases Option.or_eq_some_iff.mp ho with hkept | ⟨-, hfound⟩
      · exact h.reply o hkept
      · rcases Option.or_eq_some_iff.mp hfound with houtcome | ⟨-, hlate⟩
        · have hover : w.isOver = true := by rw [isOver, houtcome]; rfl
          have hwhole := (whole_of_isOver collaborators hover).2.2
          rw [houtcome, h.whole] at hwhole
          exact .inl (Option.some.inj hwhole)
        · split at hlate
          · rename_i hdue
            exact .inr ⟨(Option.some.inj hlate).symm, hdue⟩
          · cases hlate

theorem run_cons (t : Turn) (ts : List Turn) :
    w.run collaborators deadline (t :: ts) =
      (w.step collaborators deadline t).run collaborators deadline ts :=
  rfl

theorem run_append (ts us : List Turn) :
    w.run collaborators deadline (ts ++ us) =
      (w.run collaborators deadline ts).run collaborators deadline us :=
  List.foldl_append

/-- What every turn preserves holds after any turns. -/
theorem run_induction {motive : Waiting σ → Prop} (hstart : motive w)
    (hstep : ∀ w t, motive w → motive (w.step collaborators deadline t)) (ts : List Turn) :
    motive (w.run collaborators deadline ts) :=
  List.foldlRecOn ts _ hstart fun w hw t _ => hstep w t hw

theorem Follows.run (h : Follows collaborators deadline course w) (ts : List Turn) :
    Follows collaborators deadline course (w.run collaborators deadline ts) :=
  run_induction h (fun _ t hw => hw.step t) ts

theorem reply_run {o : Except EngineError Verdict} (h : w.reply = some o) (ts : List Turn) :
    (w.run collaborators deadline ts).reply = some o :=
  run_induction (motive := fun w => w.reply = some o) h (fun _ t hw => reply_step hw t) ts

theorem isOver_run (h : w.isOver = true) (ts : List Turn) :
    (w.run collaborators deadline ts).isOver = true :=
  run_induction (motive := fun w => w.isOver = true) h (fun _ t hw => isOver_step hw t) ts

/-- Every turn of the evaluation asks a question until it is over. -/
theorem isOver_or_length (collaborators : Collaborators σ) (deadline : Nat) (w : Waiting σ)
    (ts : List Turn) :
    (w.run collaborators deadline ts).isOver = true ∨
      (w.run collaborators deadline ts).transcript.length =
        w.transcript.length + ts.countP Turn.isWork := by
  induction ts generalizing w with
  | nil => exact .inr rfl
  | cons t ts ih =>
      cases hover : w.isOver with
      | true => exact .inl (isOver_run hover _)
      | false =>
          refine (ih (w.step collaborators deadline t)).imp_right ?_
          intro hlength
          rw [List.countP_cons]
          cases t with
          | work =>
              have hasked : (w.step collaborators deadline .work).transcript.length =
                w.transcript.length + 1 := length_work hover
              rw [hasked] at hlength
              refine hlength.trans ?_
              simp only [Turn.isWork, if_true]
              omega
          | pass span => exact hlength
          | look => exact hlength

/-- An evaluation that is asked on often enough comes to its end. -/
theorem isOver_of_works (h : Follows collaborators deadline course w) {ts : List Turn}
    (hworks : course.transcript.length ≤ w.transcript.length + ts.countP Turn.isWork) :
    (w.run collaborators deadline ts).isOver = true := by
  cases hover : (w.run collaborators deadline ts).isOver with
  | true => rfl
  | false =>
      have hless := length_lt_whole collaborators hover
      rw [(h.run ts).whole] at hless
      rcases isOver_or_length collaborators deadline w ts with hdone | hlength
      · rw [hover] at hdone
        cases hdone
      · omega

/-- An evaluation that is over has asked and left what the whole dialogue asks and
leaves. -/
theorem Follows.over (h : Follows collaborators deadline course w) (hover : w.isOver = true) :
    w.transcript = course.transcript ∧ w.state = course.state ∧
      w.outcome? = some (course.result.getD (.error .aborted)) := by
  obtain ⟨htranscript, hstate, houtcome⟩ := whole_of_isOver collaborators hover
  rw [h.whole] at htranscript hstate houtcome
  exact ⟨htranscript.symm, hstate.symm, houtcome⟩

theorem reply_works (w : Waiting σ) (n : Nat) :
    (w.run collaborators deadline (List.replicate n .work)).reply = w.reply := by
  induction n generalizing w with
  | zero => rfl
  | succ n ih => exact (ih (w.work collaborators)).trans (caller_work collaborators w).1

/-- An evaluation that is left alone comes to its end, and its caller waits on. -/
theorem Follows.works (h : Follows collaborators deadline course w) (hnew : w.transcript = []) :
    let ended := w.run collaborators deadline (List.replicate course.transcript.length .work)
    ended.isOver = true ∧ ended.transcript = course.transcript ∧ ended.state = course.state ∧
      ended.outcome? = some (course.result.getD (.error .aborted)) ∧ ended.reply = w.reply := by
  intro ended
  have hover : ended.isOver = true := by
    apply isOver_of_works h
    rw [hnew, List.countP_replicate]
    exact Nat.le_add_left _ _
  obtain ⟨htranscript, hstate, houtcome⟩ := (h.run _).over hover
  exact ⟨hover, htranscript, hstate, houtcome, reply_works w _⟩

/-- A caller who looks at the deadline, before anything was asked, and not again
leaves with a time-out. -/
theorem Follows.reply_late (h : Follows collaborators deadline course w)
    (hnew : w.transcript = []) (hnone : w.reply = none) (hnot : w.isOver = false) :
    let ended := w.run collaborators deadline
      (.pass deadline :: .look :: List.replicate course.transcript.length .work)
    ended.isOver = true ∧ ended.reply = some (overrun deadline) ∧
      ended.transcript = course.transcript ∧ ended.state = course.state := by
  intro ended
  have hgone : ((w.step collaborators deadline (.pass deadline)).step collaborators deadline
      .look).reply = some (overrun deadline) :=
    look_late hnone hnot (Nat.le_add_left deadline w.spent)
  obtain ⟨hover, htranscript, hstate, -, hreply⟩ :=
    ((h.step (.pass deadline)).step .look).works hnew
  exact ⟨hover, hreply.trans hgone, htranscript, hstate⟩

/-- A caller who looks when the evaluation is over, and not before, gets its result. -/
theorem Follows.reply_over (h : Follows collaborators deadline course w)
    (hnew : w.transcript = []) (hnone : w.reply = none) :
    let ended := w.run collaborators deadline
      (List.replicate course.transcript.length .work ++ [.look])
    ended.isOver = true ∧ ended.reply = some (course.result.getD (.error .aborted)) ∧
      ended.transcript = course.transcript ∧ ended.state = course.state := by
  intro ended
  obtain ⟨hover, htranscript, hstate, houtcome, hreply⟩ := h.works hnew
  have hended : ended = (w.run collaborators deadline
      (List.replicate course.transcript.length .work)).step collaborators deadline .look :=
    run_append _ _
  rw [hended]
  exact ⟨isOver_step hover .look, look_over (hreply.trans hnone) houtcome, htranscript, hstate⟩

end Runs

/-! ## Evaluations that are awaited -/

theorem follows_start (collaborators : Collaborators σ) (deadline : Nat) (c : Config)
    (r : Request) (s : σ) :
    Follows collaborators deadline ((Engine.evaluate c r).run collaborators s) (start c r s) := by
  refine ⟨whole_new collaborators (Engine.evaluate c r) s 0 _, ?_⟩
  intro o ho
  simp only [start] at ho
  obtain ⟨cause, hcause, rfl⟩ := Option.map_eq_some_iff.mp ho
  rw [evaluate_unfit hcause]
  exact .inl rfl

theorem follows_evaluation (d : Deployment) (deadline : Nat) (r : Request) :
    Follows Deployment.collaborators deadline (d.evaluation r) (start d.config r d) := by
  rw [Deployment.evaluation, Deployment.hold]
  exact follows_start Deployment.collaborators deadline d.config r d

/-- The evaluation of an unfit request is over before anything is asked. -/
theorem isOver_unfit {c : Config} {r : Request} {cause : RequestError}
    (h : r.defect? = some cause) (s : σ) : (start c r s).isOver = true := by
  simp only [isOver, outcome?, start, Engine.evaluate, h]
  rfl

/-- The evaluation of a fit request is not. -/
theorem isOver_start {c : Config} {r : Request} (hfit : r.defect? = none) (s : σ) :
    (start c r s).isOver = false := by
  simp only [isOver, outcome?, start, Engine.evaluate, hfit]
  rfl

/-- The evaluation for a caller who waits is one of the ways in which one that is
awaited may go: the caller looks when it is over, or else at the deadline and not
again. -/
theorem evaluateAsync_is_run (d : Deployment) (deadline : Option Nat) (r : Request) :
    ∃ ts : List Turn,
      let w := (start d.config r d).run Deployment.collaborators
        (deadline.getD d.config.storeBudget) ts
      w.isOver = true ∧ d.evaluateAsync deadline r = ⟨w.reply, w.transcript, w.state⟩ := by
  generalize hbudget : deadline.getD d.config.storeBudget = budget
  cases hfit : r.defect? with
  | some cause =>
      refine ⟨[], isOver_unfit hfit d, ?_⟩
      simp only [Deployment.evaluateAsync, hfit, start, run, List.foldl_nil, Option.map_some]
  | none =>
      have hcourse : d.evaluateAsync deadline r =
          { d.evaluation r with
            result := some (Deployment.awaited budget ((d.evaluation r).state.elapsed - d.elapsed)
              (d.evaluation r).result) } := by
        simp only [Deployment.evaluateAsync, hfit, hbudget, Deployment.evaluation]
      have hfollows := follows_evaluation d budget r
      have hnone : (start d.config r d).reply = none := by
        simp only [start, hfit, Option.map_none]
      have hnot := isOver_start hfit d (c := d.config)
      rw [hcourse]
      by_cases hlate : budget < (d.evaluation r).state.elapsed - d.elapsed
      · obtain ⟨hover, hreply, htranscript, hstate⟩ := hfollows.reply_late rfl hnone hnot
        refine ⟨_, hover, ?_⟩
        rw [hreply, htranscript, hstate, Deployment.awaited, if_pos hlate]
        rfl
      · obtain ⟨hover, hreply, htranscript, hstate⟩ := hfollows.reply_over rfl hnone
        refine ⟨_, hover, ?_⟩
        rw [hreply, htranscript, hstate, Deployment.awaited, if_neg hlate]

end Waiting

end DecisionPoint
