import DecisionPoint.Policy.Basic
import DecisionPoint.Policy.Document
import DecisionPoint.Proofs.Json.Fields
import DecisionPoint.Proofs.Json.Spelling
import DecisionPoint.Proofs.Time.Timestamp
import DecisionPoint.Verdict

/-!
The two kinds of records that the cache holds, written and read back. A policy
comes back as it was, or not at all where a bound lies in a year that a text
cannot name. A verdict comes back as it was, its timestamp cut to
milliseconds, or not at all where the year has no place in the wire profile.
-/

namespace DecisionPoint

open Json (Slots Value)
open Time (Date Instant)

/-! ## Policies -/

namespace PolicyStatus

theorem ofJson?_word (s : PolicyStatus) : ofJson? (.text s.word) = some s := by
  cases s <;> rfl

end PolicyStatus

namespace Policy

/-- Whether a text can name the year of an instant. -/
def isNamedInstant (t : Instant) : Bool :=
  Instant.isYear (Date.ofDay t.day).year

/-- Whether a text can name all bounds of a policy. -/
def isWritable (p : Policy) : Bool :=
  p.effectiveFrom.all isNamedInstant && p.effectiveUntil.all isNamedInstant

theorem boundOfJson?_boundToJson (t : Instant) :
    boundOfJson? (boundToJson t) = if isNamedInstant t then some t else none := by
  rw [boundOfJson?, boundToJson, Value.asText?_text, Option.bind_some, String.toList_ofList]
  exact Instant.ofRelaxedText?_boundText t

theorem isSpelled_toJson (p : Policy) : p.toJson.isSpelled = true := by
  apply Value.isSpelled_record
  simp [Value.isSpelled_int, Value.isSpelled_textOrNull, Value.isSpelled, Value.text, boundToJson]

theorem ofJson?_toJson (p : Policy) :
    ofJson? p.toJson = if p.isWritable then some p else none := by
  obtain ⟨slots, hslots, hlookup⟩ : ∃ slots, p.toJson.slots? schema = some slots ∧ _ :=
    Value.slots?_ofNames rfl (by decide)
  have hkey : slots.required "policyKey" (·.asText?) = some p.key :=
    Slots.required_eq (hlookup _) rfl
  have hname : slots.required "name" (·.asText?) = some p.name :=
    Slots.required_eq (hlookup _) rfl
  have henabled : slots.required "enabled" (·.asBool?) = some p.enabled :=
    Slots.required_eq (hlookup _) rfl
  have hstatus : slots.required "status" PolicyStatus.ofJson? = some p.status :=
    Slots.required_eq (hlookup _) p.status.ofJson?_word
  have hpriority : slots.required "priority" (·.asInt32?) = some p.priority :=
    Slots.required_eq (hlookup _) (Value.asInt32?_int _)
  have htenant : slots.defaulted "tenantKey" none (·.asOption? (·.asText?)) = some p.tenant :=
    Slots.defaulted_map_self (hlookup _) (fun _ => rfl) fun _ _ => rfl
  have hrules : slots.defaulted "rules" none (·.asOption? (·.asText?)) = some p.rules :=
    Slots.defaulted_eq (hlookup _) (Value.asOption?_textOrNull _)
  have hconditions : slots.defaulted "conditions" none (·.asOption? (·.asText?)) =
      some p.conditions :=
    Slots.defaulted_eq (hlookup _) (Value.asOption?_textOrNull _)
  have hactions : slots.defaulted "actions" none (·.asOption? (·.asText?)) = some p.actions :=
    Slots.defaulted_eq (hlookup _) (Value.asOption?_textOrNull _)
  have hfrom : slots.defaulted "effectiveFrom" none (·.asOption? boundOfJson?) =
      if p.effectiveFrom.all isNamedInstant then some p.effectiveFrom else none :=
    Slots.defaulted_map (hlookup _) (fun _ => rfl) fun t _ => boundOfJson?_boundToJson t
  have huntil : slots.defaulted "effectiveUntil" none (·.asOption? boundOfJson?) =
      if p.effectiveUntil.all isNamedInstant then some p.effectiveUntil else none :=
    Slots.defaulted_map (hlookup _) (fun _ => rfl) fun t _ => boundOfJson?_boundToJson t
  rw [ofJson?, hslots]
  simp only [Option.bind_eq_bind, Option.bind_some, hkey, hname, henabled, hstatus, hpriority,
    htenant, hrules, hconditions, hactions, hfrom, huntil, isWritable]
  by_cases hstart : p.effectiveFrom.all isNamedInstant = true
  · by_cases hend : p.effectiveUntil.all isNamedInstant = true
    · simp [hstart, hend]
    · simp [hstart, hend]
  · simp [hstart]

/-- A list of policies reads back as itself where all bounds can be written,
and otherwise not at all. -/
theorem listOfText?_listToText (ps : List Policy) :
    listOfText? (listToText ps) = if ps.all isWritable then some ps else none := by
  have hspelled : (Value.array (ps.map toJson)).isSpelled = true :=
    Value.isSpelled_array_map fun p _ => p.isSpelled_toJson
  rw [listOfText?, listToText, Value.ofText?_toText _ hspelled, Option.bind_some]
  exact Value.asList?_map_if fun p _ => p.ofJson?_toJson

theorem listOfText?_eq {ps qs : List Policy} (h : listOfText? (listToText ps) = some qs) :
    qs = ps := by
  rw [listOfText?_listToText] at h
  split at h
  · cases h
    rfl
  · cases h

end Policy

/-! ## Verdicts -/

theorem Decision.ofJson?_toJson (d : Decision) : ofJson? d.toJson = some d := by
  cases d <;> rfl

namespace TraceEntry

theorem isSpelled_toJson (e : TraceEntry) : e.toJson.isSpelled = true := by
  apply Value.isSpelled_record
  simp [Value.isSpelled_int, Value.isSpelled, Value.text, Decision.toJson]

theorem ofJson?_toJson (e : TraceEntry) : ofJson? e.toJson = some e := by
  obtain ⟨slots, hslots, hlookup⟩ : ∃ slots, e.toJson.slots? schema = some slots ∧ _ :=
    Value.slots?_ofNames rfl (by decide)
  have hkey : slots.required "policyKey" (·.asText?) = some e.policyKey :=
    Slots.required_eq (hlookup _) rfl
  have hpriority : slots.required "priority" (·.asInt32?) = some e.priority :=
    Slots.required_eq (hlookup _) (Value.asInt32?_int _)
  have happlied : slots.required "applied" (·.asBool?) = some e.applied :=
    Slots.required_eq (hlookup _) rfl
  have hdecision : slots.defaulted "decision" none (·.asOption? Decision.ofJson?) =
      some e.decision :=
    Slots.defaulted_map_self (hlookup _) (fun _ => rfl) fun d _ => d.ofJson?_toJson
  have hrule : slots.defaulted "matchedRuleId" none (·.asOption? (·.asText?)) = some e.ruleId :=
    Slots.defaulted_map_self (hlookup _) (fun _ => rfl) fun _ _ => rfl
  rw [ofJson?, hslots]
  simp only [Option.bind_eq_bind, Option.bind_some, hkey, hpriority, happlied, hdecision, hrule]
  rfl

end TraceEntry

namespace Verdict

/-- Whether the wire profile has room for the timestamp of a verdict. -/
def isWritable (v : Verdict) : Bool :=
  Instant.isWireYear (Date.ofDay v.timestamp.day).year

theorem timestampOfJson?_toJson (t : Instant) :
    timestampOfJson? (Request.timestampToJson t) =
      if Instant.isWireYear (Date.ofDay t.day).year then some t.truncateToMillis else none := by
  rw [timestampOfJson?, Request.timestampToJson, Value.asText?_text, Option.bind_some,
    String.toList_ofList]
  exact Instant.ofWireText?_wireText t

theorem isSpelled_toJson (v : Verdict) : v.toJson.isSpelled = true := by
  apply Value.isSpelled_record
  have htrace : ∀ entries : List TraceEntry,
      (Value.array (entries.map TraceEntry.toJson)).isSpelled = true :=
    fun entries => Value.isSpelled_array_map fun e _ => e.isSpelled_toJson
  have hminutes : ∀ minutes : Option UInt32,
      (minutes.elim Value.null fun n => .int n.toNat).isSpelled = true := by
    intro minutes
    cases minutes with
    | none => rfl
    | some n => exact Value.isSpelled_int _
  simp [Value.isSpelled_textOrNull, htrace, hminutes]
  simp [Value.isSpelled, Value.text, Decision.toJson, Request.timestampToJson]

theorem ofJson?_toJson (v : Verdict) :
    ofJson? v.toJson =
      if v.isWritable then some { v with timestamp := v.timestamp.truncateToMillis }
      else none := by
  obtain ⟨slots, hslots, hlookup⟩ : ∃ slots, v.toJson.slots? schema = some slots ∧ _ :=
    Value.slots?_ofNames rfl (by decide)
  have hdecision : slots.required "decision" Decision.ofJson? = some v.decision :=
    Slots.required_eq (hlookup _) v.decision.ofJson?_toJson
  have hreason : slots.required "reason" (·.asText?) = some v.reason :=
    Slots.required_eq (hlookup _) rfl
  have hkey : slots.defaulted "policyKey" none (·.asOption? (·.asText?)) = some v.policyKey :=
    Slots.defaulted_eq (hlookup _) (Value.asOption?_textOrNull _)
  have hname : slots.defaulted "policyName" none (·.asOption? (·.asText?)) = some v.policyName :=
    Slots.defaulted_eq (hlookup _) (Value.asOption?_textOrNull _)
  have htrace : slots.defaulted "evaluationDetails" none
      (·.asOption? (·.asList? TraceEntry.ofJson?)) = some v.trace :=
    Slots.defaulted_map_self (hlookup _) (fun _ => rfl) fun entries _ =>
      Value.asList?_map fun e _ => e.ofJson?_toJson
  have hminutes : slots.defaulted "expirationMinutes" none (·.asOption? (·.asUInt32?)) =
      some v.expirationMinutes := by
    refine Slots.defaulted_eq (hlookup _) ?_
    cases hm : v.expirationMinutes with
    | none => rfl
    | some n =>
        change ((Value.int n.toNat).asUInt32?).map some = some (some n)
        rw [Value.asUInt32?_int]
        rfl
  have htimestamp : slots.required "timestamp" timestampOfJson? =
      if v.isWritable then some v.timestamp.truncateToMillis else none := by
    have hslot : slots.lookup "timestamp" = some (Request.timestampToJson v.timestamp) :=
      hlookup _
    rw [Slots.required, hslot, Option.bind_some, timestampOfJson?_toJson]
    rfl
  rw [ofJson?, hslots]
  simp only [Option.bind_eq_bind, Option.bind_some, hdecision, hreason, hkey, hname, htrace,
    hminutes, htimestamp]
  by_cases hyear : v.isWritable = true
  · simp [hyear]
  · simp [hyear]

/-- A verdict reads back with its timestamp cut to milliseconds, where its
timestamp can be written, and otherwise not at all. -/
theorem ofText?_toText (v : Verdict) :
    ofText? v.toText =
      if v.isWritable then some { v with timestamp := v.timestamp.truncateToMillis }
      else none := by
  rw [ofText?, toText, Value.ofText?_toText _ v.isSpelled_toJson, Option.bind_some,
    ofJson?_toJson]

theorem ofText?_eq {v w : Verdict} (hcut : v.timestamp.truncateToMillis = v.timestamp)
    (h : ofText? v.toText = some w) : w = v := by
  rw [ofText?_toText, hcut] at h
  split at h
  · cases h
    rfl
  · cases h

end Verdict

end DecisionPoint
