import DecisionPoint.Proofs.Engine
import DecisionPoint.Proofs.Evaluation
import DecisionPoint.Proofs.Records

/-!
What was computed is served. A verdict that an evaluation computes is the last
that it writes, so a cache that works gives it back for as long as it was
written for, to every request with the same key.
-/

namespace DecisionPoint

namespace Deployment

theorem kept?_empty {d : Deployment} (hempty : d.cache.entries = []) (r : Request) :
    d.kept? r = none := by
  rw [Option.eq_none_iff_forall_ne_some]
  intro v hkept
  obtain ⟨x, hx, -⟩ := live_of_kept? hkept
  rw [hempty] at hx
  cases hx

/-- What an entry spells is served for as long as it is found. -/
theorem kept?_of_entry {d : Deployment} {x : CacheEntry} (h : d.Serves d.config.cacheBudget x)
    {s : Request} (hkey : x.key = Key.decision s) : d.kept? s = Verdict.ofText? x.value := by
  have hread := readable?_of_serves h
  rw [hkey] at hread
  rw [kept?_eq, hread, Option.bind_some]

/-- An entry that is found under the key of a request and spells a verdict makes
the cache serve it. -/
theorem kept?_of_serves {d : Deployment} {x : CacheEntry}
    (h : d.Serves d.config.cacheBudget x) {s : Request} (hkey : x.key = Key.decision s)
    {v : Verdict} (hvalue : x.value = v.toText) (hwritable : v.isWritable = true)
    (hcut : v.timestamp.truncateToMillis = v.timestamp) : d.kept? s = some v := by
  rw [kept?_of_entry h hkey, hvalue, Verdict.ofText?_toText, if_pos hwritable, hcut]

/-- A verdict that is computed and kept for some time is the only entry of its
key, and there where there is room. -/
theorem decisionEntry_after {d : Deployment} {r : Request}
    (hset : (d.cacheFaults (Key.decision r)).set = false) (hfit : r.defect? = none) (hkept : d.kept? r = none) {v : Verdict}
    (hresult : (d.evaluation r).result = some (.ok v))
    (hlasting : DecisionCache.lifetime d.config v ≠ 0) :
    v.timestamp = d.clock.truncateToMillis ∧
      (d.evaluation r).state.cache.Sole (Key.decision r) ∧
      (0 < d.cache.capacity → decisionEntry d.config r v (d.evaluation r).state.elapsed ∈
        (d.evaluation r).state.cache.entries) := by
  obtain ⟨-, hways⟩ := d.evaluation_fit hfit
  cases hways with
  | served w hkept' hresult' hentries =>
      rw [hkept] at hkept'
      cases hkept'
  | failed hkept' hresult' horder hentries => exact absurd hresult (hresult' v)
  | computed policies hkept' hloaded hsource hresult' hlast hentries =>
      rw [hresult'] at hresult
      cases hresult
      obtain ⟨stored, hworld, helapsed, hwritten⟩ := hlast
      have hspan : Time.ofMinutes (DecisionCache.lifetime d.config
          (rule d.config r policies d.clock).verdict).toNat ≠ 0 := by
        have hminutes : (DecisionCache.lifetime d.config
            (rule d.config r policies d.clock).verdict).toNat ≠ 0 :=
          fun h => hlasting (UInt32.toNat_inj.mp h)
        simp only [Time.ofMinutes, Time.nanosPerSecond]
        omega
      rw [← hworld.cacheFaults] at hset
      obtain ⟨hsole, hthere⟩ := sole_written hset hspan
        (rule d.config r policies d.clock).verdict.toText
      rw [hwritten, helapsed, ← hworld.capacity]
      exact ⟨rule_timestamp _ _ _ _, hsole, hthere⟩

/-- A computed verdict is kept for the requests with its key while it lives. -/
theorem kept_after {d later : Deployment} {r s : Request}
    (hserves : d.CacheServes (Key.decision r)) (hfit : r.defect? = none) (hkept : d.kept? r = none) {v : Verdict}
    (hresult : (d.evaluation r).result = some (.ok v)) (hwritable : v.isWritable = true)
    (hkey : Key.decision r = Key.decision s) (hconfig : later.config = d.config)
    (hfaults : later.cacheFaults = d.cacheFaults)
    (hcache : later.cache = (d.evaluation r).state.cache)
    (hpast : (d.evaluation r).state.elapsed ≤ later.elapsed)
    (hlive : later.elapsed + (d.cacheFaults (Key.decision r)).delay < (d.evaluation r).state.elapsed +
      Time.ofMinutes (DecisionCache.lifetime d.config v).toNat) :
    later.kept? s = some v := by
  have hlasting : DecisionCache.lifetime d.config v ≠ 0 := by
    intro hzero
    rw [hzero, show Time.ofMinutes (0 : UInt32).toNat = 0 from rfl] at hlive
    omega
  obtain ⟨htime, hsole, hthere⟩ :=
    decisionEntry_after hserves.writes hfit hkept hresult hlasting
  have hentry : later.Serves later.config.cacheBudget
      (decisionEntry d.config r v (d.evaluation r).state.elapsed) := by
    constructor
    case reads =>
      rw [hfaults]
      exact hserves.reads
    case prompt =>
      rw [hfaults, hconfig]
      exact hserves.prompt
    case there =>
      rw [hcache]
      exact hthere hserves.room
    case sole =>
      rw [hcache]
      exact hsole
    case live =>
      rw [hfaults]
      exact hlive
  exact kept?_of_serves hentry hkey rfl hwritable (by rw [htime, truncateToMillis_idem])

/-- Right after a verdict was computed it is served to every request with its
key, whatever the policies say to that request. -/
theorem served_right_after {d : Deployment} {r s : Request}
    (hserves : d.CacheServes (Key.decision r)) (hr : r.defect? = none) (hs : s.defect? = none) (hkept : d.kept? r = none) {v : Verdict}
    (hresult : (d.evaluation r).result = some (.ok v)) (hwritable : v.isWritable = true)
    (hkey : Key.decision r = Key.decision s)
    (hlive : (d.cacheFaults (Key.decision r)).delay <
      Time.ofMinutes (DecisionCache.lifetime d.config v).toNat) :
    ((d.evaluation r).state.evaluation s).result = some (.ok v) := by
  obtain ⟨hworld, -⟩ := d.evaluation_fit hr
  apply result_of_kept? hs
  apply kept_after hserves hr hkept hresult hwritable hkey hworld.config hworld.cacheFaults rfl
  · exact Nat.le_refl _
  · omega

end Deployment

end DecisionPoint
