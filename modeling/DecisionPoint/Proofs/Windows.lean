import DecisionPoint.Proofs.Engine
import DecisionPoint.Proofs.Evaluation

/-!
The windows between changes. From an instant up to the next change among some
policies, and no longer, the same policies are in force in the same order and the
same change lies ahead. A bound that is reached exactly has passed: a policy is in
force from its start on, and no more from its end on, so both are changes only
for the instants before them.
-/

namespace DecisionPoint.Policy

open Time (Instant)

/-- Whether an instant is the first bound of some policies that is still to come. -/
structure ComesNext (policies : List Policy) (now change : Instant) : Prop where
  bound : ∃ p ∈ policies, change ∈ p.bounds
  ahead : now < change
  first : ∀ p ∈ policies, ∀ bound ∈ p.bounds, now < bound → change ≤ bound

variable {policies : List Policy} {now later : Instant}

/-- The next change is the first bound that is still to come. -/
theorem nextChange_eq_some_iff {change : Instant} :
    nextChange policies now = some change ↔ ComesNext policies now change := by
  constructor
  · intro h
    obtain ⟨hbound, hahead⟩ := nextChange_mem h
    refine ⟨hbound, hahead, ?_⟩
    intro p hp bound hmem hafter
    exact Instant.earliest?_le h (mem_changes.mpr ⟨⟨p, hp, hmem⟩, hafter⟩)
  · intro h
    have hmem := mem_changes.mpr ⟨h.bound, h.ahead⟩
    cases hnext : nextChange policies now with
    | none =>
        rw [nextChange] at hnext
        rw [Instant.earliest?_eq_none hnext] at hmem
        cases hmem
    | some other =>
        obtain ⟨⟨p, hp, hother⟩, hahead⟩ := nextChange_mem hnext
        have hsame : other = change :=
          Instant.le_antisymm (Instant.earliest?_le hnext hmem) (h.first p hp other hother hahead)
        rw [hsame]

/-- No bound is passed up to an instant that lies before the next change, and only
then. -/
theorem undisturbed_iff :
    Undisturbed policies now later ↔
      ∀ change, nextChange policies now = some change → later < change := by
  constructor
  · intro hquiet change hchange
    obtain ⟨⟨p, hp, hbound⟩, hafter⟩ := nextChange_mem hchange
    apply Decidable.byContradiction
    intro hreached
    exact hquiet p hp change hbound ⟨hafter, hreached⟩
  · exact undisturbed_of_nextChange

/-- Where no bound is passed, the same bounds are still to come. -/
theorem nextChange_eq (hle : now ≤ later) (hquiet : Undisturbed policies now later) :
    nextChange policies later = nextChange policies now := by
  have hcome : (policies.flatMap bounds).filter (fun t => later < t) =
      (policies.flatMap bounds).filter fun t => now < t := by
    apply List.filter_congr
    intro bound hmem
    obtain ⟨p, hp, hbound⟩ := List.mem_flatMap.mp hmem
    rw [decide_eq_decide]
    constructor
    · exact Instant.lt_of_le_of_lt hle
    · intro hafter
      apply Decidable.byContradiction
      intro hpassed
      exact hquiet p hp bound hbound ⟨hafter, hpassed⟩
  rw [nextChange, nextChange, hcome]

/-- The policies in force, their order and the change ahead of them stay as they
are up to the next change, and no longer. -/
theorem window_stands_iff (policies : List Policy) {now later : Instant} (hle : now ≤ later) :
    (∀ change, nextChange policies now = some change → later < change) ↔
      inForce policies later = inForce policies now ∧
        nextChange policies later = nextChange policies now := by
  constructor
  · intro hbefore
    have hquiet := undisturbed_iff.mpr hbefore
    exact ⟨inForce_eq hle hquiet, nextChange_eq hle hquiet⟩
  · rintro ⟨-, hsame⟩ change hchange
    rw [← hsame] at hchange
    exact (nextChange_mem hchange).2

def minute (n : Nat) : Instant :=
  Instant.epoch.advance (Time.ofMinutes n)

/-- A policy without bounds, one that ends in minute 2, one that would end before it
starts, and one that starts in minute 7. -/
def sampleWindows : List Policy :=
  [{ Sample.policy with key := "always", effectiveFrom := none },
    { Sample.policy with
      key := "over", effectiveFrom := some (minute 0), effectiveUntil := some (minute 2) },
    { Sample.policy with
      key := "never", effectiveFrom := some (minute 5), effectiveUntil := some (minute 1) },
    { Sample.policy with key := "soon", effectiveFrom := some (minute 7) }]

theorem window_stands_iff_sample :
    minute 2 ≤ minute 4 ∧ nextChange sampleWindows (minute 2) = some (minute 5) ∧
      inForce sampleWindows (minute 4) = inForce sampleWindows (minute 2) ∧
      nextChange sampleWindows (minute 4) = some (minute 5) := by
  have hle : minute 2 ≤ minute 4 := by decide
  have hnext : nextChange sampleWindows (minute 2) = some (minute 5) := by decide
  have hbefore : ∀ change, nextChange sampleWindows (minute 2) = some change →
      minute 4 < change := by
    intro change hchange
    obtain rfl := Option.some.inj (hnext.symm.trans hchange)
    decide
  obtain ⟨hsame, hahead⟩ := (window_stands_iff sampleWindows hle).mp hbefore
  exact ⟨hle, hnext, hsame, hahead.trans hnext⟩

end DecisionPoint.Policy
