import DecisionPoint.Proofs.Repetition
import DecisionPoint.Proofs.Waiting

/-!
Evaluations that a caller awaited. They have the effects of those that nobody
waits for, so a caller who left and tries again is served from what the
evaluation left in the cache, in the years that the text of a verdict can name.
-/

namespace DecisionPoint

open Time (Date Instant)

namespace Deployment

/-! ## Requests that are tried again -/

/-- An evaluation over which the store answers every query in time comes to a
verdict. -/
theorem ok_of_answered {σ : Type} (collaborators : Collaborators σ) {c : Config} {r : Request}
    {s : σ} (hfit : r.defect? = none)
    (hanswered : ∀ x ∈ ((Engine.evaluate c r).run collaborators s).transcript,
      x.answer.isSome = true ∧ x.failure? c.storeBudget = none) :
    ∃ v, ((Engine.evaluate c r).run collaborators s).result = some (.ok v) := by
  have hheld := Dialogue.held_run collaborators (Engine.evaluate c r) s
  have hresult := hheld.result_isSome fun x hx => (hanswered x hx).1
  have hreports := reports_evaluate c hfit _ _ hheld
  rw [List.filterMap_eq_nil_iff.mpr fun x hx => (hanswered x hx).2] at hreports
  generalize ((Engine.evaluate c r).run collaborators s).result = result at *
  match result with
  | none => cases hresult
  | some (.error e) => cases hreports
  | some (.ok v) => exact ⟨v, rfl⟩

/-- A verdict with a time to live of its own is kept for it, and that is some time if
it is a minute or more. -/
theorem lifetime_of_minutes (c : Config) {v : Verdict} {minutes : UInt32}
    (hminutes : v.expirationMinutes = some minutes) (hlasting : 1 ≤ minutes) :
    DecisionCache.lifetime c v = minutes ∧ DecisionCache.lifetime c v ≠ 0 := by
  have hlifetime : DecisionCache.lifetime c v = minutes := by
    rw [DecisionCache.lifetime, hminutes, Option.getD_some]
  refine ⟨hlifetime, ?_⟩
  rw [hlifetime]
  rintro rfl
  exact absurd hlasting (by decide)

/-- After an evaluation that comes to a verdict the cache holds the one entry that
spells it, for the lifetime of the verdict if it was computed. -/
theorem entry_after {d : Deployment} {r : Request} (hserves : d.CacheServes (Key.decision r))
    (hfit : r.defect? = none) (hsole : d.cache.Sole (Key.decision r))
    (hyear : Instant.isWireYear (Date.ofDay d.clock.day).year = true) {v : Verdict}
    (hresult : (d.evaluation r).result = some (.ok v)) {minutes : UInt32}
    (hminutes : v.expirationMinutes = some minutes) (hlasting : 1 ≤ minutes) :
    ∃ x ∈ (d.evaluation r).state.cache.entries, x.key = Key.decision r ∧
      Verdict.ofText? x.value = some v ∧
      (d.evaluation r).state.cache.Sole (Key.decision r) ∧
      (d.kept? r = none →
        x.expiresAt = (d.evaluation r).state.elapsed + Time.ofMinutes minutes.toNat) := by
  cases hkept : d.kept? r with
  | some w =>
      have hcourse := evaluation_of_kept? hfit hkept
      rw [hcourse] at hresult
      cases hresult
      have hsoleAfter : (d.evaluation r).state.cache.Sole (Key.decision r) := by
        rw [evaluation]
        exact hold_sole _ hsole
      have hlooked : (d.evaluation r).state.cache =
          (d.cache.get (d.elapsed + (d.cacheFaults (Key.decision r)).delay)
            (Key.decision r)).2 := by
        rw [hcourse]
        simp only [looked, hserves.reads, Bool.false_eq_true, if_false]
      rw [kept?_eq, Option.bind_eq_some_iff] at hkept
      obtain ⟨text, htext, hv⟩ := hkept
      have hfound : (d.cache.get (d.elapsed + (d.cacheFaults (Key.decision r)).delay)
          (Key.decision r)).1 = some text := by
        rw [readable?] at htext
        split at htext
        · cases htext
        · exact htext
      obtain ⟨x, hx, hkey, rfl⟩ := LruCache.mem_get_of_found hfound
      rw [hlooked] at hsoleAfter ⊢
      exact ⟨x, hx, hkey, hv, hsoleAfter, fun hnone => absurd hnone (Option.some_ne_none _)⟩
  | none =>
      obtain ⟨hlifetime, hlasts⟩ := lifetime_of_minutes d.config hminutes hlasting
      obtain ⟨htime, hsoleAfter, hthere⟩ :=
        decisionEntry_after hserves.writes hfit hkept hresult hlasts
      have hwritable : v.isWritable = true := by
        rw [Verdict.isWritable, htime]
        exact hyear
      have hback : Verdict.ofText? v.toText = some v := by
        rw [Verdict.ofText?_toText, if_pos hwritable, htime, truncateToMillis_idem, ← htime]
      exact ⟨_, hthere hserves.room, rfl, hback, hsoleAfter, fun _ => by
        rw [decisionEntry, hlifetime]⟩

/-- A verdict that was made outside the years of the wire profile is kept in vain: its
text cannot be read. -/
theorem unkept_after {d : Deployment} {r : Request}
    (hset : (d.cacheFaults (Key.decision r)).set = false) (hfit : r.defect? = none) (hkept : d.kept? r = none) {v : Verdict}
    (hresult : (d.evaluation r).result = some (.ok v))
    (hlasting : DecisionCache.lifetime d.config v ≠ 0) (hroom : 0 < d.cache.capacity)
    (hyear : Instant.isWireYear (Date.ofDay d.clock.day).year = false) :
    (d.evaluation r).state.kept? r = none := by
  obtain ⟨htime, hsole, hthere⟩ := decisionEntry_after hset hfit hkept hresult hlasting
  have hwritable : v.isWritable = false := by
    rw [Verdict.isWritable, htime]
    exact hyear
  rw [Option.eq_none_iff_forall_ne_some]
  intro w hserved
  obtain ⟨x, hx, hkey, -, hvalue⟩ := live_of_kept? hserved
  obtain rfl := hsole x hx _ (hthere hroom) hkey rfl
  rw [decisionEntry, Verdict.ofText?_toText, if_neg (by simp [hwritable])] at hvalue
  cases hvalue

/-- As long as the one entry of a key is there and lives, and the cache is read in
time, every request with the key is answered by one read. -/
theorem answeredByRead_while (executor : Executor) {d : Deployment} {x : CacheEntry}
    (hsole : d.cache.Sole x.key) {v : Verdict} (hv : Verdict.ofText? x.value = some v)
    (ms : List Move) :
    let later := d.run executor ms
    let fault := later.cacheFaults x.key
    x ∈ later.cache.entries → later.elapsed + fault.delay < x.expiresAt →
      fault.get = false → fault.delay ≤ later.config.cacheBudget →
      ∀ s : Request, s.defect? = none → Key.decision s = x.key → later.AnsweredByRead s v := by
  intro later fault hthere hlive hreads hprompt s hfit hkey
  have hserves : later.Serves later.config.cacheBudget x :=
    ⟨hreads, hprompt, hthere, run_sole executor hsole ms, hlive⟩
  exact answeredByRead_of_kept? hfit ((kept?_of_entry hserves hkey.symm).trans hv)

end Deployment

namespace Waiting

section Awaited

variable {deadline : Nat} {r : Request}

/-- However the turns go, an unfit request is refused before anything is asked. -/
theorem run_unfit (collaborators : Collaborators σ) (c : Config) (s : σ) (ts : List Turn)
    {cause : RequestError} (hcause : r.defect? = some cause) :
    let w := (start c r s).run collaborators deadline ts
    w.reply = some (.error (.invalidRequest cause)) ∧ w.transcript = [] ∧ w.state = s := by
  intro w
  have hreply : (start c r s).reply = some (.error (.invalidRequest cause)) := by
    rw [start, hcause, Option.map_some]
  obtain ⟨htranscript, hstate, -⟩ :=
    ((follows_start collaborators deadline c r s).run ts).over
      (isOver_run (isOver_unfit hcause s) ts)
  rw [evaluate_unfit hcause] at htranscript hstate
  exact ⟨reply_run hreply ts, htranscript, hstate⟩

/-- Over collaborators that answer everything, the caller of a fit request gets the
result or a time-out at the deadline, and has an answer as soon as the evaluation is
over or the deadline has passed. The evaluation ends where the dialogue does. -/
theorem run_fit (collaborators : Collaborators σ) (c : Config) (s : σ) (ts : List Turn)
    (hanswered : ∀ x ∈ ((Engine.evaluate c r).run collaborators s).transcript,
      x.answer.isSome = true) :
    let held := (Engine.evaluate c r).run collaborators s
    let w := (start c r s).run collaborators deadline ts
    (∀ o, w.reply = some o →
      held.result = some o ∨ (o = overrun deadline ∧ deadline ≤ w.spent)) ∧
    (w.isOver = true ∨ deadline ≤ w.spent →
      (w.step collaborators deadline .look).reply.isSome = true) ∧
    (held.transcript.length ≤ ts.countP Turn.isWork → w.isOver = true) ∧
    (w.isOver = true → w.transcript = held.transcript ∧ w.state = held.state) := by
  intro held w
  have hstart := follows_start collaborators deadline c r s
  have hresult : held.result.isSome = true :=
    (Dialogue.held_run collaborators (Engine.evaluate c r) s).result_isSome hanswered
  obtain ⟨outcome, houtcome⟩ := Option.isSome_iff_exists.mp hresult
  refine ⟨?_, reply_look, ?_, ?_⟩
  · intro o ho
    refine ((hstart.run ts).reply o ho).imp_left ?_
    rw [houtcome]
    rintro rfl
    rfl
  · intro hworks
    exact isOver_of_works hstart (Nat.le_trans hworks (Nat.le_add_left _ _))
  · intro hover
    obtain ⟨htranscript, hstate, -⟩ := (hstart.run ts).over hover
    exact ⟨htranscript, hstate⟩

/-- Where the store answered in time, an awaited evaluation that is over has left a
verdict in the cache, and the request is answered from there when it is tried again. -/
theorem retry_served (executor : Executor) {d : Deployment} {ts : List Turn}
    (hfit : r.defect? = none) (hserves : d.CacheServes (Key.decision r))
    (hsole : d.cache.Sole (Key.decision r))
    (hyear : Instant.isWireYear (Date.ofDay d.clock.day).year = true) :
    let w := (start d.config r d).run Deployment.collaborators deadline ts
    w.isOver = true →
    (∀ x ∈ w.transcript, x.answer.isSome = true ∧ x.failure? d.config.storeBudget = none) →
    ∃ v, (d.evaluation r).result = some (.ok v) ∧
      ∀ minutes, v.expirationMinutes = some minutes → 1 ≤ minutes →
        ∃ x ∈ w.state.cache.entries,
          (d.kept? r = none →
            x.expiresAt = w.state.elapsed + Time.ofMinutes minutes.toNat) ∧
          ∀ ms : List Move,
            let later := w.state.run executor ms
            let fault := later.cacheFaults (Key.decision r)
            x ∈ later.cache.entries → later.elapsed + fault.delay < x.expiresAt →
            fault.get = false → fault.delay ≤ later.config.cacheBudget →
            ∀ s : Request, s.defect? = none → Key.decision s = Key.decision r →
              later.AnsweredByRead s v := by
  intro w hover hanswered
  have hfollows : Follows Deployment.collaborators deadline (d.evaluation r) w :=
    (follows_evaluation d deadline r).run ts
  obtain ⟨htranscript, hstate, -⟩ := hfollows.over hover
  rw [htranscript] at hanswered
  obtain ⟨v, hv⟩ : ∃ v, (d.evaluation r).result = some (.ok v) := by
    rw [Deployment.evaluation] at hanswered ⊢
    exact Deployment.ok_of_answered Deployment.collaborators hfit hanswered
  refine ⟨v, hv, ?_⟩
  intro minutes hminutes hlasting
  obtain ⟨x, hx, hkey, hback, hsoleAfter, hexpires⟩ :=
    Deployment.entry_after hserves hfit hsole hyear hv hminutes hlasting
  rw [hstate]
  refine ⟨x, hx, hexpires, ?_⟩
  rw [← hkey] at hsoleAfter ⊢
  exact Deployment.answeredByRead_while executor hsoleAfter hback

end Awaited

/-- An evaluation that a caller waits for has the effects of one that is held at
once. An unfit request is refused before anything is asked. Of a fit one the caller
gets the result or a time-out at the deadline, has an answer as soon as the
evaluation is over or the deadline has passed, and whichever it was: once it is over,
and it is after as many questions as the dialogue has, what was asked and what is
left are the same. The evaluation for a caller who waits is a case of this. So where
the store answered in time, the verdict is served from its entry when the request is
tried again, while the entry is there and lives: nothing but a read of the cache is
asked. That a key has one entry at most holds from an empty cache on, by `run_sole`. -/
theorem awaited_as_held :
    (∀ (σ : Type) (collaborators : Collaborators σ) (deadline : Nat) (c : Config) (r : Request)
      (s : σ) (ts : List Turn),
      let held := (Engine.evaluate c r).run collaborators s
      let w := (start c r s).run collaborators deadline ts
      (∀ cause, r.defect? = some cause →
        w.reply = some (.error (.invalidRequest cause)) ∧ w.transcript = [] ∧ w.state = s) ∧
      (r.defect? = none → (∀ x ∈ held.transcript, x.answer.isSome = true) →
        (∀ o, w.reply = some o →
          held.result = some o ∨ (o = overrun deadline ∧ deadline ≤ w.spent)) ∧
        (w.isOver = true ∨ deadline ≤ w.spent →
          (w.step collaborators deadline .look).reply.isSome = true) ∧
        (held.transcript.length ≤ ts.countP Turn.isWork → w.isOver = true) ∧
        (w.isOver = true → w.transcript = held.transcript ∧ w.state = held.state))) ∧
    (∀ (d : Deployment) (deadline : Option Nat) (r : Request), ∃ ts : List Turn,
      let w := (start d.config r d).run Deployment.collaborators
        (deadline.getD d.config.storeBudget) ts
      w.isOver = true ∧ d.evaluateAsync deadline r = ⟨w.reply, w.transcript, w.state⟩) ∧
    ∀ (executor : Executor) (deadline : Nat) (d : Deployment) (r : Request) (ts : List Turn),
      let w := (start d.config r d).run Deployment.collaborators deadline ts
      r.defect? = none → d.CacheServes (Key.decision r) → d.cache.Sole (Key.decision r) →
      Instant.isWireYear (Date.ofDay d.clock.day).year = true → w.isOver = true →
      (∀ x ∈ w.transcript, x.answer.isSome = true ∧ x.failure? d.config.storeBudget = none) →
      ∃ v, (d.evaluation r).result = some (.ok v) ∧
        ∀ minutes, v.expirationMinutes = some minutes → 1 ≤ minutes →
          ∃ x ∈ w.state.cache.entries,
            (d.kept? r = none →
              x.expiresAt = w.state.elapsed + Time.ofMinutes minutes.toNat) ∧
            ∀ ms : List Move,
              let later := w.state.run executor ms
              let fault := later.cacheFaults (Key.decision r)
              x ∈ later.cache.entries → later.elapsed + fault.delay < x.expiresAt →
              fault.get = false → fault.delay ≤ later.config.cacheBudget →
              ∀ s : Request, s.defect? = none → Key.decision s = Key.decision r →
                later.AnsweredByRead s v := by
  refine ⟨?_, evaluateAsync_is_run, ?_⟩
  · intro σ collaborators deadline c r s ts held w
    exact ⟨fun _ => run_unfit collaborators c s ts, fun _ => run_fit collaborators c s ts⟩
  · intro executor deadline d r ts w hfit hserves hsole hyear
    exact retry_served executor hfit hserves hsole hyear

/-- An engine over a store that takes a tenth of a second for every query and holds
a policy with one action. -/
def slow (clock : Instant) : Deployment :=
  { Deployment.start { Config.standard with cacheCandidates := false } 4
      (.memory ⟨[{ Sample.policy with
        effectiveFrom := none
        actions := some "[\x7b\"type\":\"LOG_EVENT\"\x7d]" }], 0⟩) clock 0 with
    globalFault := ⟨Time.ofMillis 100, false, none⟩
    tenantFault := ⟨Time.ofMillis 100, false, none⟩ }

theorem sole_slow (clock : Instant) (key : String) : (slow clock).cache.Sole key := by
  intro x hx
  cases hx

/-- The request of the sample is handed over to the slow engine, and its caller waits
for twenty milliseconds. -/
def slowRun (clock : Instant) (ts : List Turn) : Waiting Deployment :=
  (start (slow clock).config Sample.request (slow clock)).run Deployment.collaborators
    (Time.ofMillis 20) ts

/-- One question is asked and twenty milliseconds pass. -/
def slowStart : List Turn :=
  [.work, .pass (Time.ofMillis 20)]

/-- After that the caller looks, and then all other questions are asked. -/
def slowTurns : List Turn :=
  slowStart ++ .look :: List.replicate 5 .work

theorem fit_request : Sample.request.defect? = none := by
  decide +kernel

/-- The caller leaves with a time-out if the evaluation has more to ask than one
question. -/
theorem reply_slow (clock : Instant) (hover : (slowRun clock slowStart).isOver = false) :
    (slowRun clock slowTurns).reply = some (overrun (Time.ofMillis 20)) := by
  have hlate : Time.ofMillis 20 ≤ (slowRun clock slowStart).spent :=
    Nat.le_add_left _ _
  have hnone : (slowRun clock slowStart).reply = none := by
    refine (caller_work Deployment.collaborators _).1.trans ?_
    rw [start, fit_request, Option.map_none]
  rw [slowRun] at hover hlate hnone ⊢
  rw [slowTurns, run_append, run_cons]
  generalize run Deployment.collaborators (Time.ofMillis 20) _ slowStart = w at *
  exact reply_run (look_late hnone hover hlate) _

/-- The evaluation comes to its end if it has no more than six questions. -/
theorem over_slow {clock : Instant}
    (hsix : ((slow clock).evaluation Sample.request).transcript.length ≤ 6) :
    let w := slowRun clock slowTurns
    let held := (slow clock).evaluation Sample.request
    w.isOver = true ∧ w.transcript = held.transcript ∧ w.state = held.state := by
  have hstart := follows_evaluation (slow clock) (Time.ofMillis 20) Sample.request
  have hover : (slowRun clock slowTurns).isOver = true :=
    isOver_of_works hstart (Nat.le_trans hsix (Nat.le_add_left _ _))
  obtain ⟨htranscript, hstate, -⟩ := (hstart.run slowTurns).over hover
  exact ⟨hover, htranscript, hstate⟩

/-- The retry after the first minute, the only policy being gone. -/
def slowChanges : List Move :=
  [.pass (Time.ofMinutes 1), .event (.remove Sample.policy.key)]

/-- The changes touch neither the cache nor its faults. -/
theorem run_slowChanges (d : Deployment) :
    (d.run .lenient slowChanges).cache = d.cache ∧
      (d.run .lenient slowChanges).cacheFaults = d.cacheFaults ∧
      (d.run .lenient slowChanges).elapsed = d.elapsed + Time.ofMinutes 1 := by
  obtain ⟨dispatcher, hpass⟩ := Deployment.after_pass .lenient d (Time.ofMinutes 1)
  rw [slowChanges, Deployment.run_cons, hpass]
  generalize hpassed : { d with
    clock := d.clock.advance (Time.ofMinutes 1)
    elapsed := d.elapsed + Time.ofMinutes 1
    dispatcher : Deployment } = passed
  obtain ⟨dispatcher', hremove⟩ :=
    Deployment.after_event .lenient passed (.remove Sample.policy.key)
  rw [Deployment.run_cons, hremove, Deployment.run_nil, ← hpassed]
  exact ⟨rfl, rfl, rfl⟩

theorem awaited_as_held_sample :
    (slowRun .epoch slowTurns).reply = some (overrun (Time.ofMillis 20)) ∧
      (slowRun .epoch slowTurns).isOver = true ∧
      (slowRun .epoch slowTurns).state.dispatcher.tally.queued = 1 ∧
      ∃ v, ((slow .epoch).evaluation Sample.request).result = some (.ok v) ∧
        ((slowRun .epoch slowTurns).state.run .lenient slowChanges).AnsweredByRead
          Sample.request v := by
  obtain ⟨-, -, hretry⟩ := awaited_as_held
  obtain ⟨hsix, hanswered, hfive, hqueued⟩ :
      ((slow .epoch).evaluation Sample.request).transcript.length ≤ 6 ∧
        (∀ x ∈ ((slow .epoch).evaluation Sample.request).transcript,
          x.answer.isSome = true ∧ x.failure? (slow .epoch).config.storeBudget = none) ∧
        ((slow .epoch).evaluation Sample.request).result.bind (·.toOption.bind
          (·.expirationMinutes)) = some 5 ∧
        ((slow .epoch).evaluation Sample.request).state.dispatcher.tally.queued = 1 := by
    decide +kernel
  obtain ⟨hover, htranscript, hstate⟩ := over_slow hsix
  have hreply := reply_slow .epoch (by decide +kernel)
  have hmiss : (slow .epoch).kept? Sample.request = none := Deployment.kept?_empty rfl _
  obtain ⟨hworld, -⟩ := (slow .epoch).evaluation_fit fit_request
  rw [← htranscript] at hanswered
  rw [← hstate] at hqueued hworld
  obtain ⟨v, hv, hrest⟩ := hretry .lenient (Time.ofMillis 20) (slow .epoch) Sample.request
    slowTurns fit_request ⟨rfl, rfl, by decide, by decide⟩ (sole_slow _ _) (by decide)
    hover hanswered
  rw [hv] at hfive
  obtain ⟨x, hx, hexpires, hserved⟩ := hrest 5 hfive (by decide)
  refine ⟨hreply, hover, hqueued, v, hv, ?_⟩
  rw [slowRun] at hworld ⊢
  generalize run Deployment.collaborators _ _ slowTurns = w at *
  obtain ⟨hcache, hfaults, helapsed⟩ := run_slowChanges w.state
  rw [hworld.cacheFaults] at hfaults
  apply hserved slowChanges
  · rw [hcache]
    exact hx
  · rw [hexpires hmiss, helapsed, hfaults]
    have hminute : Time.ofMinutes 1 < Time.ofMinutes 5 := by decide
    exact Nat.add_lt_add_left hminute _
  · rw [hfaults]
    rfl
  · rw [hfaults]
    exact Nat.zero_le _
  · exact fit_request
  · rfl

def lateClock : Instant :=
  ⟨253402300800, 0, .inl (by decide)⟩

/-- A verdict that was made in the year 10000 is kept, but its text cannot be read:
the request of a caller who left is evaluated once more when it is tried again, the
store is queried again, and the action is dispatched again. -/
theorem retried_in_vain :
    let w := slowRun lateClock slowTurns
    let again := w.state.evaluation Sample.request
    Sample.request.defect? = none ∧ (slow lateClock).CacheServes (Key.decision Sample.request) ∧
      (slow lateClock).cache.Sole (Key.decision Sample.request) ∧
      w.reply = some (overrun (Time.ofMillis 20)) ∧ w.isOver = true ∧
      (∀ x ∈ w.transcript,
        x.answer.isSome = true ∧ x.failure? (slow lateClock).config.storeBudget = none) ∧
      (∃ v, ((slow lateClock).evaluation Sample.request).result = some (.ok v) ∧
        v.expirationMinutes = some 5) ∧
      (∃ x ∈ w.state.cache.entries, x.key = Key.decision Sample.request ∧
        x.expiresAt = w.state.elapsed + Time.ofMinutes 5) ∧
      (queries again.transcript).length = 2 ∧
      w.state.dispatcher.tally.queued = 1 ∧ again.state.dispatcher.tally.queued = 2 := by
  intro w again
  obtain ⟨hsix, hanswered, hfive, hqueued⟩ :
      ((slow lateClock).evaluation Sample.request).transcript.length ≤ 6 ∧
        (∀ x ∈ ((slow lateClock).evaluation Sample.request).transcript,
          x.answer.isSome = true ∧ x.failure? (slow lateClock).config.storeBudget = none) ∧
        ((slow lateClock).evaluation Sample.request).result.bind (·.toOption.bind
          (·.expirationMinutes)) = some 5 ∧
        ((slow lateClock).evaluation Sample.request).state.dispatcher.tally.queued = 1 := by
    decide +kernel
  obtain ⟨hover, htranscript, hstate⟩ := over_slow hsix
  have hmiss : (slow lateClock).kept? Sample.request = none := Deployment.kept?_empty rfl _
  obtain ⟨v, hv, hminutes⟩ : ∃ v, ((slow lateClock).evaluation Sample.request).result =
      some (.ok v) ∧ v.expirationMinutes = some 5 := by
    obtain ⟨outcome, hresult, hminutes⟩ := Option.bind_eq_some_iff.mp hfive
    cases outcome with
    | error e => cases hminutes
    | ok v => exact ⟨v, hresult, hminutes⟩
  obtain ⟨hlifetime, hlasting⟩ :=
    Deployment.lifetime_of_minutes (slow lateClock).config hminutes (by decide)
  obtain ⟨-, -, hthere⟩ := Deployment.decisionEntry_after rfl fit_request hmiss hv hlasting
  have hunkept := Deployment.unkept_after rfl fit_request hmiss hv hlasting (by decide)
    (by decide +kernel)
  have hagain := Deployment.evaluation_of_unkept fit_request hunkept
  have hanew : let anew := (((slow lateClock).evaluation Sample.request).state.asked
        Sample.request).hold (Engine.evaluateAnew
          ((slow lateClock).evaluation Sample.request).state.config Sample.request)
      (queries anew.transcript).length = 2 ∧ anew.state.dispatcher.tally.queued = 2 := by
    decide +kernel
  have hexpires : (Deployment.decisionEntry (slow lateClock).config Sample.request v
      ((slow lateClock).evaluation Sample.request).state.elapsed).expiresAt =
        ((slow lateClock).evaluation Sample.request).state.elapsed + Time.ofMinutes 5 := by
    rw [Deployment.decisionEntry, hlifetime]
    rfl
  rw [← htranscript] at hanswered
  refine ⟨fit_request, ⟨rfl, rfl, by decide, by decide⟩, sole_slow _ _,
    reply_slow lateClock (by decide +kernel), hover, hanswered, ⟨v, hv, hminutes⟩, ?_⟩
  simp only [again, w, hstate]
  rw [hagain]
  exact ⟨⟨_, hthere (by decide), rfl, hexpires⟩, hanew.1, hqueued, hanew.2⟩

end Waiting

end DecisionPoint
