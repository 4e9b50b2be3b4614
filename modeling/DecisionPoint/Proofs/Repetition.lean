import DecisionPoint.Proofs.Freshness
import DecisionPoint.Proofs.Run
import DecisionPoint.Proofs.Serving

/-!
Requests that are repeated. Once a verdict was computed and kept, its entry is
the only one of its key, whatever happens afterwards. As long as it is there and
lives, and reads of the cache work, every request with the key is answered by
one read: with the verdict as it was given, and with nothing else asked or
changed.
-/

namespace DecisionPoint

open Time (Date Instant)

namespace Deployment

/-! ## One entry of a key -/

/-- No question makes a second entry of a key. -/
theorem collaborators_sole {d : Deployment} {key : String} (h : d.cache.Sole key)
    (question : Question) : (collaborators question d).2.cache.Sole key := by
  cases question with
  | cacheSet key' value ttl =>
      simp only [collaborators]
      split
      · exact h
      · exact h.insert _ _ _ _
  | _ => exact h.mono (d.collaborators_keepsOut fun _ _ _ heq => by cases heq).2

theorem hold_sole (x : Dialogue α) {d : Deployment} {key : String} (h : d.cache.Sole key) :
    (d.hold x).state.cache.Sole key :=
  Dialogue.run_preserves (P := fun after : Deployment => after.cache.Sole key)
    (fun question _ hsole => collaborators_sole hsole question) x h

theorem cacheEvent_sole {d : Deployment} {key : String} (h : d.cache.Sole key) (e : CacheEvent) :
    (d.cacheEvent e).2.cache.Sole key := by
  cases e with
  | set key' value ttl => exact h.insert _ _ _ _
  | get key' => exact h.mono fun _ => LruCache.mem_of_mem_get
  | delete key' => exact h.mono fun _ => LruCache.mem_of_mem_erase
  | deletePattern pattern => exact h.mono fun _ hx => (LruCache.mem_of_mem_erasePattern.mp hx).1
  | clear => exact h.mono fun _ hx => by cases hx
  | _ => exact h

/-- No event brings a second entry of a key into the cache. -/
theorem happen_sole {d : Deployment} {key : String} (h : d.cache.Sole key) (e : Event) :
    (d.happen e).state.cache.Sole key := by
  rcases d.happen_cases e with ⟨α, x, hstate⟩ | ⟨e, rfl⟩ | ⟨hcache, -⟩
  · rw [hstate]
    exact hold_sole x h
  · exact cacheEvent_sole h e
  · rw [hcache]
    exact h

/-- No run makes a second entry of a key. -/
theorem run_sole (executor : Executor) {d : Deployment} {key : String} (h : d.cache.Sole key)
    (ms : List Move) : (d.run executor ms).cache.Sole key := by
  refine run_induction (motive := fun later => later.cache.Sole key) executor h ?_
  intro later m _ hsole
  cases m with
  | event e => exact happen_sole hsole e
  | pass span => exact hsole

/-! ## Answered by one read -/

/-- The evaluation of a request is answered by a single read of the cache. Nothing
changes but the entries of the cache, and none comes to them. -/
structure AnsweredByRead (d : Deployment) (s : Request) (v : Verdict) : Prop where
  result : (d.evaluation s).result = some (.ok v)
  asked : ∃ answer, (d.evaluation s).transcript = [⟨.cacheGet (Key.decision s), some answer⟩]
  entries : ∀ x ∈ (d.evaluation s).state.cache.entries, x ∈ d.cache.entries
  config : (d.evaluation s).state.config = d.config
  clock : (d.evaluation s).state.clock = d.clock
  backend : (d.evaluation s).state.backend = d.backend
  dispatcher : (d.evaluation s).state.dispatcher = d.dispatcher

/-- A verdict that the cache serves answers the request by a single read. -/
theorem answeredByRead_of_kept? {d : Deployment} {s : Request} (hfit : s.defect? = none)
    {v : Verdict} (h : d.kept? s = some v) : d.AnsweredByRead s v := by
  have hcourse := evaluation_of_kept? hfit h
  constructor
  case result => rw [hcourse]
  case asked =>
    rw [hcourse]
    exact ⟨_, rfl⟩
  case entries =>
    rw [hcourse]
    exact fun x => mem_of_mem_looked
  all_goals
    rw [hcourse, looked]
    split <;> rfl

/-- A verdict that was computed and kept answers every request with the key of
its request by one read, at every later point of a run where its entry is still
in the cache and alive and the cache is read in time. -/
theorem answer_repeated (executor : Executor) {d : Deployment} {e : Event} {r : Request}
    (hrequest : e.request? = some r) (hfit : r.defect? = none) (hmiss : d.kept? r = none)
    {v : Verdict} (hresult : (d.evaluation r).result = some (.ok v)) {minutes : UInt32}
    (hminutes : v.expirationMinutes = some minutes) (hlasting : 1 ≤ minutes)
    (hset : (d.cacheFaults (Key.decision r)).set = false)
    (hyear : Instant.isWireYear (Date.ofDay d.clock.day).year = true) :
    let x : CacheEntry := decisionEntry d.config r v (d.evaluation r).state.elapsed
    x.expiresAt = (d.evaluation r).state.elapsed + Time.ofMinutes minutes.toNat ∧
      (0 < d.cache.capacity → x ∈ (d.run executor [.event e]).cache.entries) ∧
      ∀ ms : List Move,
        let later := d.run executor (.event e :: ms)
        let fault := later.cacheFaults (Key.decision r)
        x ∈ later.cache.entries → later.elapsed + fault.delay < x.expiresAt →
        fault.get = false → fault.delay ≤ later.config.cacheBudget →
        ∀ s : Request, s.defect? = none → Key.decision s = Key.decision r →
          later.AnsweredByRead s v := by
  have hlifetime : DecisionCache.lifetime d.config v = minutes := by
    rw [DecisionCache.lifetime, hminutes, Option.getD_some]
  have hlasts : DecisionCache.lifetime d.config v ≠ 0 := by
    rw [hlifetime]
    rintro rfl
    exact absurd hlasting (by decide)
  obtain ⟨htime, hsole, hthere⟩ := decisionEntry_after hset hfit hmiss hresult hlasts
  have hwritable : v.isWritable = true := by
    rw [Verdict.isWritable, htime]
    exact hyear
  have hcache : (d.run executor [.event e]).cache = (d.evaluation r).state.cache := by
    change (d.happen e).state.cache = _
    rw [(happen_request hrequest hfit).1]
  refine ⟨by rw [decisionEntry, hlifetime], ?_, ?_⟩
  · rw [hcache]
    exact hthere
  · intro ms later fault hmem hlive hreads hprompt s hs hkey
    -- That the entry is there is not enough: the read must not meet another one of
    -- its key first.
    have hsoleLater : later.cache.Sole (Key.decision r) := by
      apply run_sole executor _ ms
      rw [← hcache] at hsole
      exact hsole
    exact answeredByRead_of_kept? hs
      (kept?_of_serves ⟨hreads, hprompt, hmem, hsoleLater, hlive⟩ hkey.symm rfl hwritable
        (by rw [htime, truncateToMillis_idem]))

/-- Time passes, the only policy is removed and the clock is set to long after. -/
def sampleChanges : List Move :=
  [.pass (Time.ofMinutes 4), .event (.remove Sample.policy.key),
    .event (.advanceClock (Time.ofMinutes 600))]

theorem answer_repeated_sample :
    Sample.request.defect? = none ∧
      (Sample.deployment 0).kept? Sample.request = none ∧
      ∃ v, ((Sample.deployment 0).evaluation Sample.request).result = some (.ok v) ∧
        v.expirationMinutes = some 5 ∧
        ((Sample.deployment 0).run .lenient
          (.event (.evaluate Sample.request) :: sampleChanges)).AnsweredByRead
          { Sample.request with tenantField := some " tenant-1 " } v := by
  have hfit : Sample.request.defect? = none := by decide +kernel
  have hmiss : (Sample.deployment 0).kept? Sample.request = none := kept?_empty rfl _
  have hresult := evaluation_empty (d := Sample.deployment 0) rfl ⟨rfl, rfl⟩ hfit
  have hminutes := rule_expiration (Sample.deployment 0).config Sample.request (Policy.distinct
    ((Sample.deployment 0).backend.found Sample.request.tenant)) (Sample.deployment 0).clock
  have hfive : lifetimeOf (Sample.deployment 0).config Sample.request (Policy.nextChange
      (Policy.distinct ((Sample.deployment 0).backend.found Sample.request.tenant))
      (Sample.deployment 0).clock) (Sample.deployment 0).clock = 5 := by
    decide +kernel
  rw [hfive] at hminutes
  obtain ⟨-, hthere, hrepeats⟩ := answer_repeated .lenient (d := Sample.deployment 0)
    (e := .evaluate Sample.request) rfl hfit hmiss hresult hminutes (by decide) rfl
    (by decide +kernel)
  refine ⟨hfit, hmiss, _, hresult, hminutes, ?_⟩
  apply hrepeats sampleChanges
  · exact hthere (by decide)
  · decide +kernel
  · decide +kernel
  · decide +kernel
  · decide +kernel
  · decide +kernel

end Deployment

end DecisionPoint
