import DecisionPoint.Proofs.Engine
import DecisionPoint.Proofs.Records

/-!
Records that went through the cache. A record that its text can hold comes back
from its text, and whatever goes on from reading it in the cache goes on as it
would from the record itself, with whatever collaborators.
-/

namespace DecisionPoint

open Time (Date Instant)

def Course.behind (exchange : Exchange) (course : Course α σ) : Course α σ :=
  { course with transcript := exchange :: course.transcript }

def Exchange.found (key text : String) (elapsed : Nat) : Exchange :=
  ⟨.cacheGet key, some ⟨.ok (some text), elapsed⟩⟩

/-- Whether reading a record is as good as having it: where the cache gives the
text of the record in time, everything that follows the read goes as it would go
from the record. -/
def ReadsAs (budget : Nat) (key text : String) (read : Dialogue (Option α)) (record : α) : Prop :=
  ∀ (σ β : Type) (collaborators : Collaborators σ) (s after : σ) (elapsed : Nat)
    (next : Option α → Dialogue β),
    collaborators (.cacheGet key) s = (some ⟨.ok (some text), elapsed⟩, after) →
    elapsed ≤ budget →
    (read >>= next).run collaborators s =
      ((next (some record)).run collaborators after).behind (.found key text elapsed)

theorem run_readText_found {collaborators : Collaborators σ} {s after : σ} {key text : String}
    {budget elapsed : Nat}
    (hfound : collaborators (.cacheGet key) s = (some ⟨.ok (some text), elapsed⟩, after))
    (hprompt : elapsed ≤ budget) :
    (DecisionCache.readText budget key).run collaborators s =
      ⟨some (some text), [.found key text elapsed], after⟩ := by
  simp [DecisionCache.readText, Dialogue.run_bind, Dialogue.query, Dialogue.run, hfound,
    Course.andThen, Dialogue.run_pure, Exchange.found, hprompt]

/-- Reading a text that decodes to a record is as good as having the record. -/
theorem readsAs_of_decode {budget : Nat} {key text : String} {decode : String → Option α}
    {record : α} (h : decode text = some record) :
    ReadsAs budget key text (do return (← DecisionCache.readText budget key).bind decode)
      record := by
  intro σ β collaborators s after elapsed next hfound hprompt
  have hread : (do
      return (← DecisionCache.readText budget key).bind decode : Dialogue (Option α)).run
        collaborators s = ⟨some (some record), [.found key text elapsed], after⟩ := by
    rw [Dialogue.run_bind, run_readText_found hfound hprompt]
    simp [Course.andThen, Dialogue.run_pure, h]
  rw [Dialogue.run_bind, hread]
  rfl

namespace Deployment

/-- What was written is read back, where the cache works. -/
theorem readable?_written {d : Deployment} {key : String} (h : d.CacheServes key) {ttl : Nat}
    (hlive : (d.cacheFaults key).delay < ttl) (text : String) :
    (d.written key text ttl).readable? d.config.cacheBudget key = some text := by
  have hworld := d.sameWorld_written key text ttl
  obtain ⟨hsole, hthere⟩ := sole_written h.writes (by omega : ttl ≠ 0) text
  have hserves : (d.written key text ttl).Serves d.config.cacheBudget
      ⟨key, text, d.elapsed + ttl⟩ := by
    constructor
    case reads =>
      rw [hworld.cacheFaults]
      exact h.reads
    case prompt =>
      rw [hworld.cacheFaults]
      exact h.prompt
    case there => exact hthere h.room
    case sole => exact hsole
    case live =>
      rw [hworld.cacheFaults, elapsed_written]
      exact Nat.add_lt_add_left hlive _
  exact readable?_of_serves hserves

/-- A verdict that was written is read back while it lives, where the cache serves its key.
-/
theorem result_getDecision_written {d : Deployment} {r : Request}
    (h : d.CacheServes (Key.decision r)) {v : Verdict}
    (hback : Verdict.ofText? v.toText = some v)
    (hlive : (d.cacheFaults (Key.decision r)).delay <
      Time.ofMinutes (DecisionCache.lifetime d.config v).toNat) :
    ((d.hold (DecisionCache.putDecision d.config r v)).state.hold
      (DecisionCache.getDecision d.config r)).result = some (some v) := by
  obtain ⟨transcript, hwrite⟩ := d.hold_write (Key.decision r) v.toText
    (Time.ofMinutes (DecisionCache.lifetime d.config v).toNat)
  rw [DecisionCache.putDecision, hwrite, hold_getDecision, readable?_written h hlive,
    Option.bind_some, hback]

/-- Candidates that were written are read back while they live, where the cache serves their
key. -/
theorem result_getCandidates_written {d : Deployment} {tenant : Option String}
    (h : d.CacheServes (Key.candidates tenant)) {ps : List Policy}
    (hback : Policy.listOfText? (Policy.listToText ps) = some ps) {cap : Option Nat}
    (hlive : (d.cacheFaults (Key.candidates tenant)).delay <
      DecisionCache.candidateTtl d.config cap) :
    ((d.hold (DecisionCache.putCandidates d.config tenant ps cap)).state.hold
      (DecisionCache.getCandidates d.config tenant)).result = some (some ps) := by
  obtain ⟨transcript, hwrite⟩ := d.hold_write (Key.candidates tenant) (Policy.listToText ps)
    (DecisionCache.candidateTtl d.config cap)
  rw [DecisionCache.putCandidates, hwrite, hold_getCandidates, readable?_written h hlive,
    Option.bind_some, hback]

end Deployment

theorem Policy.isWritable_of_bounds {p : Policy}
    (h : ∀ t ∈ p.bounds, Instant.isYear (Date.ofDay t.day).year = true) : p.isWritable = true := by
  rw [isWritable, Bool.and_eq_true, Option.all_eq_true, Option.all_eq_true]
  exact ⟨fun t ht => h t (List.mem_append_left _ (Option.mem_toList.mpr ht)),
    fun t ht => h t (List.mem_append_right _ (Option.mem_toList.mpr ht))⟩

/-- Verdicts and lists of policies come back from their texts as they were, and so
from the cache: reading one is as good as having it, and one that was written into
a cache that works is read back. The timestamp of a verdict is cut to milliseconds
and lies in a year of four digits, and the bounds of policies lie in years that an
instant can have; nothing else is asked of a record. -/
theorem records_come_back :
    (∀ v : Verdict, v.timestamp.truncateToMillis = v.timestamp →
      Instant.isWireYear (Date.ofDay v.timestamp.day).year = true →
      Verdict.ofText? v.toText = some v ∧
        (∀ (c : Config) (r : Request), ReadsAs c.cacheBudget (Key.decision r) v.toText
          (DecisionCache.getDecision c r) v) ∧
        ∀ (d : Deployment) (r : Request), d.CacheServes (Key.decision r) →
          (d.cacheFaults (Key.decision r)).delay <
            Time.ofMinutes (DecisionCache.lifetime d.config v).toNat →
          ((d.hold (DecisionCache.putDecision d.config r v)).state.hold
            (DecisionCache.getDecision d.config r)).result = some (some v)) ∧
    ∀ ps : List Policy,
      (∀ p ∈ ps, ∀ t ∈ p.bounds, Instant.isYear (Date.ofDay t.day).year = true) →
      Policy.listOfText? (Policy.listToText ps) = some ps ∧
        (∀ (c : Config) (tenant : Option String), ReadsAs c.cacheBudget (Key.candidates tenant)
          (Policy.listToText ps) (DecisionCache.getCandidates c tenant) ps) ∧
        ∀ (d : Deployment) (tenant : Option String) (cap : Option Nat),
          d.CacheServes (Key.candidates tenant) →
          (d.cacheFaults (Key.candidates tenant)).delay <
            DecisionCache.candidateTtl d.config cap →
          ((d.hold (DecisionCache.putCandidates d.config tenant ps cap)).state.hold
            (DecisionCache.getCandidates d.config tenant)).result = some (some ps) := by
  constructor
  · intro v hcut hyear
    have hwritable : v.isWritable = true := hyear
    have hback : Verdict.ofText? v.toText = some v := by
      rw [Verdict.ofText?_toText, if_pos hwritable, hcut]
    exact ⟨hback, fun c r => readsAs_of_decode hback,
      fun d r hserves hlive => Deployment.result_getDecision_written hserves hback hlive⟩
  · intro ps hbounds
    have hall : ps.all Policy.isWritable = true :=
      List.all_eq_true.mpr fun p hp => Policy.isWritable_of_bounds (hbounds p hp)
    have hback : Policy.listOfText? (Policy.listToText ps) = some ps := by
      rw [Policy.listOfText?_listToText, if_pos hall]
    exact ⟨hback, fun c tenant => readsAs_of_decode hback, fun d tenant cap hserves hlive =>
      Deployment.result_getCandidates_written hserves hback hlive⟩

namespace Sample

def verdict : Verdict where
  decision := .deny
  reason := "\u20ac \"quoted\"\n"
  policyKey := some "\u0000"
  policyName := none
  trace := some [⟨"open-house", -2147483648, true, some .deny, some "\u2028"⟩,
    ⟨"", 2147483647, false, none, none⟩]
  expirationMinutes := some 4294967295
  timestamp := ⟨1483228799, 1250000000, .inr (by decide)⟩

/-- A policy in force from the first instant of all to the last nanosecond of a
leap second. -/
def boundedPolicy : Policy :=
  { policy with
    rules := some "\x7b\x7d"
    effectiveFrom := some ⟨-8334601228800, 1, .inl (by decide)⟩
    effectiveUntil := some ⟨1483228799, 1999999999, .inr (by decide)⟩ }

end Sample

theorem records_come_back_sample :
    Verdict.ofText? Sample.verdict.toText = some Sample.verdict ∧
      Policy.listOfText? (Policy.listToText [Sample.policy, Sample.boundedPolicy]) =
        some [Sample.policy, Sample.boundedPolicy] ∧
      (((Sample.deployment 0).hold
        (DecisionCache.putDecision .standard Sample.request Sample.verdict)).state.hold
          (DecisionCache.getDecision .standard Sample.request)).result =
        some (some Sample.verdict) := by
  obtain ⟨hverdicts, hlists⟩ := records_come_back
  obtain ⟨hverdict, -, hkept⟩ := hverdicts Sample.verdict (by decide) (by decide)
  obtain ⟨hlist, -⟩ := hlists [Sample.policy, Sample.boundedPolicy] (by decide)
  exact ⟨hverdict, hlist, hkept (Sample.deployment 0) Sample.request
    ⟨rfl, rfl, by decide, by decide⟩ (by decide)⟩

end DecisionPoint
