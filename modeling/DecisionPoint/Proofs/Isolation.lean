import DecisionPoint.Proofs.Choice
import DecisionPoint.Proofs.Freshness
import DecisionPoint.Proofs.Transparency

/-!
What the answers of a run are made of. Where nobody but the engine writes the
cache, every answer goes back to candidates that the store found for the tenant
of its request: over the same event, or over an earlier one that kept them, or
kept a verdict computed from them. Keys tell tenants apart, so no answer names
a policy of another tenant. Nothing here depends on time, and the clock may be
set at will.
-/

namespace DecisionPoint

open Time (Instant)

/-! ## The policies that a verdict names -/

/-- The keys of policies that a verdict tells a caller. -/
def Verdict.namedKeys (v : Verdict) : List String :=
  v.policyKey.toList ++ (v.trace.getD []).map TraceEntry.policyKey

theorem search_winner_mem {r : Request} {t : Time.TimeOfDay} {policies : List Policy} {p : Policy}
    (h : (search r t policies).1 = some p) : p ∈ policies := by
  rw [search_winner] at h
  exact List.mem_of_find?_eq_some h

/-- A trace tells of no policies but the candidates. -/
theorem search_trace_mem {r : Request} {t : Time.TimeOfDay} {policies : List Policy}
    {entry : TraceEntry} (h : entry ∈ (search r t policies).2) :
    ∃ p ∈ policies, p.key = entry.policyKey := by
  rcases search_cases r t policies with ⟨front, q, back, rfl, -, -, hsearch⟩ | ⟨-, hsearch⟩
  · rw [hsearch, List.mem_append] at h
    rcases h with hskipped | hdecided
    · obtain ⟨p, hp, rfl⟩ := List.mem_map.mp hskipped
      exact ⟨p, List.mem_append_left _ hp, rfl⟩
    · rw [List.mem_singleton.mp hdecided]
      exact ⟨q, by simp, rfl⟩
  · rw [hsearch] at h
    obtain ⟨p, hp, rfl⟩ := List.mem_map.mp h
    exact ⟨p, hp, rfl⟩

/-- A verdict names no policy but those it was decided from. -/
theorem rule_namedKeys {c : Config} {r : Request} {policies : List Policy} {now : Instant}
    {key : String} (h : key ∈ (rule c r policies now).verdict.namedKeys) :
    ∃ p ∈ policies, p.key = key := by
  rw [Verdict.namedKeys, List.mem_append] at h
  rcases h with hwinner | htrace
  · cases hfirst : (search r (.ofInstant now c.utcOffset) (Policy.inForce policies now)).1 with
    | none =>
        rw [(rule_saysNone hfirst).policyKey] at hwinner
        cases hwinner
    | some p =>
        rw [(rule_saysPolicy hfirst).policyKey] at hwinner
        exact ⟨p, Policy.mem_of_mem_inForce (search_winner_mem hfirst),
          (List.mem_singleton.mp hwinner).symm⟩
  · obtain ⟨entry, hentry, rfl⟩ := List.mem_map.mp htrace
    rw [rule_trace] at hentry
    split at hentry
    · obtain ⟨p, hp, hkey⟩ := search_trace_mem hentry
      exact ⟨p, Policy.mem_of_mem_inForce hp, hkey⟩
    · cases hentry

/-! ## Scopes -/

namespace Backend

/-- Whether queries are answered by a store, and not by fixed lists. -/
def isMemory : Backend → Bool
  | .memory _ => true
  | .fixed _ _ => false

theorem isMemory_uncounted (b : Backend) : b.uncounted.isMemory = b.isMemory := by
  cases b <;> rfl

theorem isMemory_change (b : Backend) (f : PolicyStore → PolicyStore) :
    (b.change f).isMemory = b.isMemory := by
  cases b <;> rfl

/-- What a store finds for a scope belongs to no tenant or to that of the
scope. -/
theorem tenant_of_mem_found {b : Backend} (hmemory : b.isMemory = true) {tenant : Option String}
    {p : Policy} (h : p ∈ b.found tenant) :
    p.tenant = none ∨ ∃ t, tenant = some t ∧ p.tenant = some t := by
  cases b with
  | fixed global tenants => cases hmemory
  | memory store =>
      rcases List.mem_append.mp h with hglobal | hown
      · have hnone := (List.mem_filter.mp hglobal).2
        exact .inl (Option.isNone_iff_eq_none.mp hnone)
      · cases tenant with
        | none => cases hown
        | some t =>
            have hselected := (List.mem_filter.mp hown).2
            rw [Bool.and_eq_true, beq_iff_eq] at hselected
            exact .inr ⟨t, rfl, hselected.1⟩

end Backend

namespace Deployment

theorem SameWorld.isMemory {d after : Deployment} (h : SameWorld d after) :
    after.backend.isMemory = d.backend.isMemory := by
  rw [← Backend.isMemory_uncounted, h.backend, Backend.isMemory_uncounted]

/-- The settings are the same, and so is whether there is a store. -/
structure SameSetup (d after : Deployment) : Prop where
  config : after.config = d.config
  isMemory : after.backend.isMemory = d.backend.isMemory

theorem SameWorld.setup {d after : Deployment} (h : SameWorld d after) : SameSetup d after :=
  ⟨h.config, h.isMemory⟩

theorem SameSetup.trans {a b c : Deployment} (hab : SameSetup a b) (hbc : SameSetup b c) :
    SameSetup a c :=
  ⟨hbc.config.trans hab.config, hbc.isMemory.trans hab.isMemory⟩

/-- No event changes the settings or puts something else in place of a store. -/
theorem happen_setup (d : Deployment) (e : Event) : SameSetup d (d.happen e).state := by
  rcases d.happen_cases e with hheld | ⟨c, rfl⟩ | ⟨-, hconfig, hbackend⟩
  · exact hheld.sameWorld.setup
  · obtain ⟨cache, hstate⟩ := d.happen_cache c
    rw [hstate]
    exact ⟨rfl, rfl⟩
  · refine ⟨hconfig, ?_⟩
    rcases hbackend with hsame | ⟨p, rfl⟩ | ⟨key, rfl⟩
    · rw [hsame]
    · exact d.backend.isMemory_change _
    · exact d.backend.isMemory_change _

theorem run_setup (executor : Executor) (d : Deployment) (ms : List Move) :
    SameSetup d (d.run executor ms) := by
  refine run_induction executor ⟨rfl, rfl⟩ ?_
  intro later m _ hsame
  cases m with
  | event e => exact hsame.trans ⟨(later.happen_setup e).config, (later.happen_setup e).isMemory⟩
  | pass span => exact hsame.trans ⟨rfl, rfl⟩

/-! ## Where answers come from -/

theorem fit_of_ok {d : Deployment} {r : Request} {v : Verdict}
    (h : (d.evaluation r).result = some (.ok v)) : r.defect? = none := by
  rw [Option.eq_none_iff_forall_ne_some]
  intro cause hcause
  rw [evaluation_invalid d hcause] at h
  cases h

theorem ok_of_awaited {deadline spent : Nat} {result : Option (Except EngineError Verdict)}
    {v : Verdict} (h : awaited deadline spent result = .ok v) : result = some (.ok v) := by
  unfold awaited at h
  split at h
  · cases h
  · cases result with
    | none => cases h
    | some outcome => exact congrArg some h

theorem ok_of_evaluateAsync {d : Deployment} {deadline : Option Nat} {r : Request} {v : Verdict}
    (h : (d.evaluateAsync deadline r).result = some (.ok v)) :
    (d.evaluation r).result = some (.ok v) := by
  unfold evaluateAsync at h
  split at h
  · cases h
  · exact ok_of_awaited (Option.some.inj h)

/-- A caller is told a verdict only where the evaluation of a fit request came
to it. -/
theorem evaluation_of_reply (executor : Executor) {d : Deployment} {e : Event} {v : Verdict}
    (h : (d.step executor e).reply = .evaluation (.ok v)) :
    ∃ r, e.request? = some r ∧ r.defect? = none ∧ (d.evaluation r).result = some (.ok v) := by
  have hresult : (d.happen e).result = some (.evaluation (.ok v)) := by
    change (d.happen e).result.getD .crashed = _ at h
    cases hreply : (d.happen e).result with
    | none => rw [hreply] at h; cases h
    | some reply => rw [hreply] at h; exact congrArg some h
  have hanswer : ∀ {α : Type} {x : Dialogue α} {reply : α → Reply},
      (d.answer x reply).result = some (.evaluation (.ok v)) →
      ∃ a, (d.hold x).result = some a ∧ reply a = .evaluation (.ok v) :=
    fun h => Option.map_eq_some_iff.mp h
  -- Each event that evaluates has its own way to a reply, the others reply with
  -- something else.
  suffices ∃ r, e.request? = some r ∧ (d.evaluation r).result = some (.ok v) by
    obtain ⟨r, hrequest, hok⟩ := this
    exact ⟨r, hrequest, fit_of_ok hok, hok⟩
  cases e with
  | evaluate r =>
      obtain ⟨_, hok, hsame⟩ := hanswer hresult
      cases hsame
      exact ⟨r, rfl, hok⟩
  | evaluateText s =>
      obtain ⟨_, hok, hsame⟩ := hanswer hresult
      cases hsame
      cases hread : Request.ofText s with
      | error e =>
          rw [Engine.evaluateText, hread] at hok
          cases hok
      | ok r =>
          rw [Engine.evaluateText, hread] at hok
          exact ⟨r, by rw [Event.request?, hread]; rfl, hok⟩
  | evaluateAsync r deadline =>
      obtain ⟨_, hok, hsame⟩ := Option.map_eq_some_iff.mp hresult
      cases hsame
      exact ⟨r, rfl, ok_of_evaluateAsync hok⟩
  | evaluateTextAsync s deadline =>
      obtain ⟨_, hok, hsame⟩ := Option.map_eq_some_iff.mp hresult
      cases hsame
      cases hread : Request.ofText s with
      | error e =>
          rw [evaluateTextAsync, hread] at hok
          cases hok
      | ok r =>
          rw [evaluateTextAsync, hread] at hok
          exact ⟨r, by rw [Event.request?, hread]; rfl, ok_of_evaluateAsync hok⟩
  | record e =>
      cases e with
      | defaultTtl => cases hresult
      | _ =>
          obtain ⟨_, -, hother⟩ := hanswer hresult
          cases hother
  | policyChanged p =>
      obtain ⟨_, -, hother⟩ := hanswer hresult
      cases hother
  | cache e => cases e <;> cases hresult
  | _ => cases hresult

section Provenance

variable {executor : Executor} {d : Deployment} {ms : List Move}
  (hspares : ∀ m ∈ ms, m.sparesCache = true) (hempty : d.cache.entries = [])

include hspares hempty

/-- The candidates of an evaluation were found by the store for the tenant of
its request, over the same event or an earlier one of the run. -/
theorem source_found {e : Event} {r : Request} (hrequest : e.request? = some r)
    (hfit : r.defect? = none) {policies : List Policy}
    (hsource : Source (d.run executor ms) r.tenant (d.run executor ms).clock
      ((d.run executor ms).evaluation r).transcript policies) :
    ∃ asked, FoundIn executor d (ms ++ [.event e]) r.tenant policies asked := by
  cases hsource with
  | store hlist hqueried =>
      rw [← (happen_request hrequest hfit).2] at hqueried
      exact ⟨_, ms, e, r, ⟨⟨[], rfl⟩, hrequest, hfit⟩, rfl, hqueried, hlist⟩
  | cache hlive =>
      obtain ⟨x, hx, hkey, -, htext⟩ := hlive
      rcases run_sparing executor hspares hx with hold | ⟨before, e₀, r₀, hoccurs, hwrites⟩
      · rw [hempty] at hold
        cases hold
      · cases hwrites with
        | decision _ _ _ _ _ => exact absurd hkey (Key.decision_ne_candidates r₀ r.tenant)
        | candidates hqueried =>
            obtain rfl := Policy.listOfText?_eq htext
            have htenant : r₀.tenant = r.tenant := Key.candidates_scope hkey
            rw [htenant, ← (happen_request hoccurs.request hoccurs.fit).2] at hqueried
            rw [htenant]
            exact ⟨_, before, e₀, r₀, hoccurs.append _, rfl, hqueried, rfl⟩

/-- An answer was computed for a request with the same key from candidates that
the store found for the tenant of the request. -/
theorem verdict_found {e : Event} {r : Request} (hrequest : e.request? = some r)
    (hfit : r.defect? = none) {v : Verdict}
    (hresult : ((d.run executor ms).evaluation r).result = some (.ok v)) :
    ∃ r₀ now policies asked, Key.decision r₀ = Key.decision r ∧
      v = (rule d.config r₀ policies now).verdict ∧
      FoundIn executor d (ms ++ [.event e]) r.tenant policies asked := by
  obtain ⟨-, hways⟩ := (d.run executor ms).evaluation_fit hfit
  cases hways with
  | failed hkept hnone horder hentries => exact absurd hresult (hnone v)
  | computed policies hkept hloaded hsource hcomputed hcache hentries =>
      rw [hresult] at hcomputed
      cases hcomputed
      obtain ⟨asked, hfound⟩ := source_found hspares hempty hrequest hfit hsource
      exact ⟨r, _, policies, asked, rfl, by rw [(run_setup executor d ms).config], hfound⟩
  | served w hkept hserved hentries =>
      rw [hresult] at hserved
      cases hserved
      obtain ⟨x, hx, hkey, -, htext⟩ := live_of_kept? hkept
      rcases run_sparing executor hspares hx with hold | ⟨before, e₀, r₀, hoccurs, hwrites⟩
      · rw [hempty] at hold
        cases hold
      · cases hwrites with
        | candidates _ => exact absurd hkey.symm (Key.decision_ne_candidates r r₀.tenant)
        | decision policies _ _ hsource _ =>
            -- The evaluation that wrote the verdict may itself have been served a
            -- list, written by one still earlier.
            obtain ⟨later, hplace⟩ := hoccurs.place
            have hfront : ∀ m ∈ before, m.sparesCache = true := by
              intro m hm
              apply hspares m
              rw [hplace]
              exact List.mem_append_left _ hm
            obtain ⟨asked, hfound⟩ :=
              source_found hfront hempty hoccurs.request hoccurs.fit hsource
            obtain ⟨-, -, -, htenant⟩ := Key.decision_components hoccurs.fit hfit hkey
            obtain rfl := Verdict.ofText?_eq (by rw [rule_timestamp, truncateToMillis_idem]) htext
            refine ⟨r₀, _, policies, asked, hkey, by rw [(run_setup executor d before).config], ?_⟩
            rw [hplace, List.append_assoc, List.cons_append, List.append_cons, ← htenant]
            exact hfound.append _

end Provenance

/-- What stands behind a verdict in a run: candidates that the store found when
it was asked for the scope of a request, behind some moves, and from which the
verdict was computed for a request with the same key. -/
structure Behind (executor : Executor) (d : Deployment) (ms : List Move) (r : Request)
    (v : Verdict) (before : List Move) (found : List Policy) : Prop where
  asked : ∃ e r₀, Occurs ms before e r₀ ∧
    Queried ((d.run executor before).step executor e).transcript r.tenant
      (d.run executor before).clock found
  stored : found = (d.run executor before).backend.found r.tenant
  ruled : ∃ r₁ now, Key.decision r₁ = Key.decision r ∧
    v = (rule d.config r₁ (Policy.distinct found) now).verdict

/-- Whatever a request is answered with in a run, it names policies that were
stored for no tenant or for the tenant of the request when the store was asked
for the candidates behind the answer. -/
theorem answer_confined (executor : Executor) (c : Config) (capacity : Nat) (store : PolicyStore)
    (clock : Instant) (tick : Nat) {ms : List Move} (hspares : ∀ m ∈ ms, m.sparesCache = true)
    {e : Event} {v : Verdict}
    (hreply : (((start c capacity (.memory store) clock tick).run executor ms).step executor
      e).reply = .evaluation (.ok v)) :
    ∃ r before found, e.request? = some r ∧ r.defect? = none ∧
      Behind executor (start c capacity (.memory store) clock tick) (ms ++ [.event e]) r v before
        found ∧
      ∀ key ∈ v.namedKeys, ∃ p ∈ found, p.key = key ∧
        p ∈ ((start c capacity (.memory store) clock tick).run executor before).backend.policies ∧
        (p.tenant = none ∨ ∃ t, r.tenant = some t ∧ p.tenant = some t) := by
  obtain ⟨r, hrequest, hfit, hresult⟩ := evaluation_of_reply executor hreply
  obtain ⟨r₁, now, policies, asked, hkey, hruled, before, e₀, r₀, hoccurs, rfl, hqueried, rfl⟩ :=
    verdict_found hspares rfl hrequest hfit hresult
  refine ⟨r, before, _, hrequest, hfit, ⟨⟨e₀, r₀, hoccurs, hqueried⟩, rfl, r₁, now, hkey, hruled⟩,
    ?_⟩
  intro key hnamed
  rw [hruled] at hnamed
  obtain ⟨p, hp, hpkey⟩ := rule_namedKeys hnamed
  have hfound := Policy.mem_of_mem_distinct hp
  have hmemory := (run_setup executor (start c capacity (.memory store) clock tick) before).isMemory
  exact ⟨p, hfound, hpkey, Backend.mem_of_mem_found hfound,
    Backend.tenant_of_mem_found hmemory hfound⟩

/-! ## A sample -/

/-- A policy of one tenant, and a policy of another that outranks it. -/
def sampleTenants : PolicyStore :=
  ⟨[{ Sample.policy with key := "own", tenant := some "tenant-1", effectiveFrom := none },
    { Sample.policy with
      key := "foreign", tenant := some "tenant-2", priority := 9, effectiveFrom := none }], 0⟩

/-- An engine with traces over the policies of two tenants. -/
def sampleShared : Deployment :=
  start { Config.standard with details := true } 4 (.memory sampleTenants) .epoch 0

/-- A request of the first tenant, with blanks around its name. -/
def samplePadded : Request :=
  { Sample.request with tenantField := some " tenant-1 " }

/-- A request with blanks around its tenant is served the verdict of that
tenant, which names its policies alone. -/
theorem answer_confined_sample :
    (∀ m ∈ sampleWait, m.sparesCache = true) ∧
      ∃ v, ((sampleShared.run .lenient sampleWait).step .lenient (.evaluate samplePadded)).reply =
          .evaluation (.ok v) ∧
        v.namedKeys = ["own", "own"] ∧
        ∃ before found,
          Behind .lenient sampleShared (sampleWait ++ [.event (.evaluate samplePadded)])
            samplePadded v before found ∧
          ∀ key ∈ v.namedKeys, ∃ p ∈ found, p.key = key ∧
            p ∈ (sampleShared.run .lenient before).backend.policies ∧
            (p.tenant = none ∨ ∃ t, samplePadded.tenant = some t ∧ p.tenant = some t) := by
  have hspares : ∀ m ∈ sampleWait, m.sparesCache = true := by decide +kernel
  have hfit : Sample.request.defect? = none := by decide +kernel
  have hpadded : samplePadded.defect? = none := by decide +kernel
  have hresult := evaluation_empty (d := sampleShared) rfl ⟨rfl, rfl⟩ hfit
  have hwritable : (rule sampleShared.config Sample.request (Policy.distinct
      (sampleShared.backend.found Sample.request.tenant)) sampleShared.clock).verdict.isWritable =
      true := by
    rw [Verdict.isWritable, rule_timestamp]
    decide +kernel
  have hlives : Time.ofMinutes 4 + (sampleShared.cacheFaults (Key.decision Sample.request)).delay <
      Time.ofMinutes (DecisionCache.lifetime sampleShared.config (rule sampleShared.config
        Sample.request (Policy.distinct (sampleShared.backend.found Sample.request.tenant))
        sampleShared.clock).verdict).toNat := by
    rw [DecisionCache.lifetime, rule_expiration]
    decide +kernel
  have hkey : Key.decision Sample.request = Key.decision samplePadded := by decide +kernel
  have hkept := kept_after_pass .lenient ⟨rfl, rfl, Nat.zero_le _, by decide⟩ hfit
    (kept?_empty rfl _) hresult hwritable hkey hlives
  have hreply := reply_of_evaluation .lenient (.inl rfl) (result_of_kept? hpadded hkept)
  obtain ⟨r, before, found, hrequest, -, hbehind, hconfined⟩ :=
    answer_confined .lenient _ _ _ _ _ hspares hreply
  cases hrequest
  exact ⟨hspares, _, hreply, by decide +kernel, before, found, hbehind, hconfined⟩

end Deployment

end DecisionPoint
