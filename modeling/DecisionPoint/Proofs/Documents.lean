import DecisionPoint.Policy.Document
import DecisionPoint.Proofs.Json.Strictness
import DecisionPoint.Proofs.Records
import DecisionPoint.Proofs.Time.ClockText

/-!
The three documents of a policy, written and read back. Rules and actions come
back as they were, and so do conditions whose times are whole seconds. No other
times are ever read, so what was read from any text at all comes back too.
-/

namespace DecisionPoint

open Json (Slots Value)

/-! ## Groups of conditions -/

namespace TimeRange

/-- Whether a window begins and ends on whole seconds. -/
def isWhole (r : TimeRange) : Bool :=
  r.start.isWhole && r.stop.isWhole

theorem timeOfJson?_timeToJson {t : Time.TimeOfDay} (h : t.isWhole = true) :
    timeOfJson? (timeToJson t) = some t := by
  rw [timeOfJson?, timeToJson, Value.asText?_text, Option.bind_some, String.toList_ofList]
  exact Time.TimeOfDay.ofText?_text h

theorem isWhole_of_timeOfJson? {v : Value} {t : Time.TimeOfDay} (h : timeOfJson? v = some t) :
    t.isWhole = true := by
  obtain ⟨s, -, hs⟩ := Option.bind_eq_some_iff.mp h
  exact Time.TimeOfDay.isWhole_of_ofText? hs

theorem isSpelled_toJson (r : TimeRange) : r.toJson.isSpelled = true := by
  apply Value.isSpelled_record
  simp [timeToJson, Value.text, Value.isSpelled]

theorem ofJson?_toJson {r : TimeRange} (h : r.isWhole = true) : ofJson? r.toJson = some r := by
  obtain ⟨hfrom, huntil⟩ := Bool.and_eq_true_iff.mp h
  obtain ⟨slots, hslots, hlookup⟩ : ∃ slots, r.toJson.slots? schema = some slots ∧ _ :=
    Value.slots?_ofNames rfl (by decide)
  have hstart : slots.required "start" timeOfJson? = some r.start :=
    Slots.required_eq (hlookup _) (timeOfJson?_timeToJson hfrom)
  have hstop : slots.required "end" timeOfJson? = some r.stop :=
    Slots.required_eq (hlookup _) (timeOfJson?_timeToJson huntil)
  rw [ofJson?, hslots]
  simp only [Option.bind_eq_bind, Option.bind_some, hstart, hstop]
  rfl

theorem isWhole_of_ofJson? {v : Value} {r : TimeRange} (h : ofJson? v = some r) :
    r.isWhole = true := by
  simp only [ofJson?, Option.bind_eq_bind, Option.bind_eq_some_iff] at h
  obtain ⟨slots, -, start, hstart, stop, hstop, heq⟩ := h
  cases heq
  obtain ⟨v, -, hv⟩ := Option.bind_eq_some_iff.mp hstart
  obtain ⟨w, -, hw⟩ := Option.bind_eq_some_iff.mp hstop
  exact Bool.and_eq_true_iff.mpr ⟨isWhole_of_timeOfJson? hv, isWhole_of_timeOfJson? hw⟩

end TimeRange

namespace TimeWindows

def isWhole (w : TimeWindows) : Bool :=
  w.allowed.all TimeRange.isWhole && w.denied.all TimeRange.isWhole

theorem isSpelled_toJson (w : TimeWindows) : w.toJson.isSpelled = true := by
  have hranges : ∀ ranges : List TimeRange,
      (Value.array (ranges.map TimeRange.toJson)).isSpelled = true :=
    fun _ => Value.isSpelled_array_map fun r _ => r.isSpelled_toJson
  apply Value.isSpelled_record
  simp [hranges]

theorem ofJson?_toJson {w : TimeWindows} (h : w.isWhole = true) : ofJson? w.toJson = some w := by
  obtain ⟨hwhole, hwhole'⟩ := Bool.and_eq_true_iff.mp h
  have hback : ∀ ranges : List TimeRange, ranges.all TimeRange.isWhole = true →
      (Value.array (ranges.map TimeRange.toJson)).asList? TimeRange.ofJson? = some ranges :=
    fun ranges hall => Value.asList?_map fun _ hr =>
      TimeRange.ofJson?_toJson (List.all_eq_true.mp hall _ hr)
  -- The fields have further names to be read by, but are written under their own.
  obtain ⟨slots, hslots, hlookup⟩ : ∃ slots, w.toJson.slots? schema = some slots ∧ _ :=
    Value.slots?_record (by simp [schema, Json.Schema.field?]) (by simp)
  have hallowed : slots.defaulted "allowedTimeRanges" [] (·.asList? TimeRange.ofJson?) =
      some w.allowed :=
    Slots.defaulted_eq (hlookup _) (hback _ hwhole)
  have hdenied : slots.defaulted "deniedTimeRanges" [] (·.asList? TimeRange.ofJson?) =
      some w.denied :=
    Slots.defaulted_eq (hlookup _) (hback _ hwhole')
  rw [ofJson?, hslots]
  simp only [Option.bind_eq_bind, Option.bind_some, hallowed, hdenied]
  rfl

theorem isWhole_of_ofJson? {v : Value} {w : TimeWindows} (h : ofJson? v = some w) :
    w.isWhole = true := by
  have hread : ∀ {slots : Slots} {name : String} {ranges : List TimeRange},
      slots.defaulted name [] (·.asList? TimeRange.ofJson?) = some ranges →
        ranges.all TimeRange.isWhole = true := by
    intro slots name ranges hfield
    rw [List.all_eq_true]
    intro r hr
    rcases Slots.of_defaulted hfield with rfl | ⟨list, hlist⟩
    · cases hr
    · obtain ⟨item, hitem⟩ := Value.exists_of_mem_asList? hlist hr
      exact TimeRange.isWhole_of_ofJson? hitem
  simp only [ofJson?, Option.bind_eq_bind, Option.bind_eq_some_iff] at h
  obtain ⟨slots, -, allowed, hallowed, denied, hdenied, heq⟩ := h
  cases heq
  exact Bool.and_eq_true_iff.mpr ⟨hread hallowed, hread hdenied⟩

end TimeWindows

namespace AccessList

theorem isSpelled_valuesToJson (values : List String) :
    (valuesToJson values).isSpelled = true :=
  Value.isSpelled_array_map fun _ _ => rfl

theorem valuesIn?_eq {slots : Slots} {name : String} {values : List String}
    (h : slots.lookup name = some (valuesToJson values)) :
    valuesIn? slots name = some values :=
  Slots.defaulted_eq h (Value.asList?_map fun _ _ => rfl)

theorem isSpelled_toJson (allowed denied : String) (l : AccessList) :
    (toJson allowed denied l).isSpelled = true := by
  apply Value.isSpelled_record
  simp [isSpelled_valuesToJson]

theorem ofJson?_toJson {allowed denied : String} (h : allowed ≠ denied) (l : AccessList) :
    ofJson? allowed denied (toJson allowed denied l) = some l := by
  obtain ⟨slots, hslots, hlookup⟩ : ∃ slots,
      (toJson allowed denied l).slots? (.ofNames [allowed, denied]) = some slots ∧ _ :=
    Value.slots?_ofNames rfl (by simp [h])
  have hallowed : valuesIn? slots allowed = some l.allowed := by
    apply valuesIn?_eq
    rw [hlookup, List.lookup_cons_self, Option.join_some]
  have hdenied : valuesIn? slots denied = some l.denied := by
    apply valuesIn?_eq
    rw [hlookup, List.lookup_cons, beq_false_of_ne h.symm]
    exact congrArg Option.join List.lookup_cons_self
  rw [ofJson?, hslots]
  simp only [Option.bind_eq_bind, Option.bind_some, hallowed, hdenied]
  rfl

end AccessList

namespace ResourceLists

theorem isSpelled_toJson (l : ResourceLists) : l.toJson.isSpelled = true := by
  apply Value.isSpelled_record
  simp [AccessList.isSpelled_valuesToJson]

theorem ofJson?_toJson (l : ResourceLists) : ofJson? l.toJson = some l := by
  obtain ⟨slots, hslots, hlookup⟩ : ∃ slots, l.toJson.slots? schema = some slots ∧ _ :=
    Value.slots?_ofNames rfl (by decide)
  have htypes : AccessList.valuesIn? slots "allowedResourceTypes" = some l.types.allowed :=
    AccessList.valuesIn?_eq (hlookup _)
  have hnotTypes : AccessList.valuesIn? slots "deniedResourceTypes" = some l.types.denied :=
    AccessList.valuesIn?_eq (hlookup _)
  have hids : AccessList.valuesIn? slots "allowedResourceIds" = some l.ids.allowed :=
    AccessList.valuesIn?_eq (hlookup _)
  have hnotIds : AccessList.valuesIn? slots "deniedResourceIds" = some l.ids.denied :=
    AccessList.valuesIn?_eq (hlookup _)
  rw [ofJson?, hslots]
  simp only [Option.bind_eq_bind, Option.bind_some, htypes, hnotTypes, hids, hnotIds]
  rfl

end ResourceLists

/-! ## Conditions -/

namespace Conditions

def isWhole (c : Conditions) : Bool :=
  c.time.all TimeWindows.isWhole

theorem isSpelled_toJson (c : Conditions) : c.toJson.isSpelled = true := by
  apply Value.isSpelled_record
  cases c.time <;> cases c.ip <;> cases c.user <;> cases c.resource <;>
    simp [TimeWindows.isSpelled_toJson, AccessList.isSpelled_toJson,
      ResourceLists.isSpelled_toJson, Value.isSpelled, Value.text]

theorem ofJson?_toJson {c : Conditions} (h : c.isWhole = true) : ofJson? c.toJson = some c := by
  obtain ⟨slots, hslots, hlookup⟩ : ∃ slots, c.toJson.slots? schema = some slots ∧ _ :=
    Value.slots?_ofNames rfl (by decide)
  have hmode : slots.defaulted "evaluationMode" blank.mode ConditionMode.ofJson? =
      some c.mode := by
    apply Slots.defaulted_eq (hlookup _)
    cases c.mode <;> rfl
  have htime : slots.defaulted "timeConditions" none (·.asOption? TimeWindows.ofJson?) =
      some c.time := by
    apply Slots.defaulted_map_self (hlookup _) (fun _ => rfl)
    intro w hw
    rw [isWhole, hw] at h
    exact w.ofJson?_toJson h
  have hip : slots.defaulted "ipConditions" none
      (·.asOption? (AccessList.ofJson? ipNames.1 ipNames.2)) = some c.ip :=
    Slots.defaulted_map_self (hlookup _) (fun _ => rfl)
      fun l _ => l.ofJson?_toJson (by decide)
  have huser : slots.defaulted "userConditions" none
      (·.asOption? (AccessList.ofJson? userNames.1 userNames.2)) = some c.user :=
    Slots.defaulted_map_self (hlookup _) (fun _ => rfl)
      fun l _ => l.ofJson?_toJson (by decide)
  have hresource : slots.defaulted "resourceConditions" none
      (·.asOption? ResourceLists.ofJson?) = some c.resource :=
    Slots.defaulted_map_self (hlookup _) (fun _ => rfl) fun l _ => l.ofJson?_toJson
  rw [ofJson?, hslots]
  simp only [Option.bind_eq_bind, Option.bind_some, hmode, htime, hip, huser, hresource]
  rfl

theorem isWhole_of_ofJson? {v : Value} {c : Conditions} (h : ofJson? v = some c) :
    c.isWhole = true := by
  simp only [ofJson?, Option.bind_eq_bind, Option.bind_eq_some_iff] at h
  obtain ⟨slots, -, mode, -, time, htime, ip, -, user, -, resource, -, heq⟩ := h
  cases heq
  cases time with
  | none => rfl
  | some w =>
      rcases Slots.of_defaulted htime with hnone | ⟨v, hv⟩
      · cases hnone
      · exact TimeWindows.isWhole_of_ofJson? (Value.of_asOption? hv)

end Conditions

/-! ## Rules -/

namespace Rule

theorem isSpelled_toJson (r : Rule) : r.toJson.isSpelled = true := by
  apply Value.isSpelled_record
  simp [Value.isSpelled_int, Value.isSpelled, Value.text, Decision.toJson]

theorem ofJson?_toJson (r : Rule) : ofJson? r.toJson = some r := by
  obtain ⟨slots, hslots, hlookup⟩ : ∃ slots, r.toJson.slots? schema = some slots ∧ _ :=
    Value.slots?_ofNames rfl (by decide)
  have hid : slots.defaulted "id" blank.id (·.asText?) = some r.id :=
    Slots.defaulted_eq (hlookup _) rfl
  have hname : slots.defaulted "name" blank.name (·.asText?) = some r.name :=
    Slots.defaulted_eq (hlookup _) rfl
  have hcondition : slots.defaulted "condition" blank.condition (·.asOption? (·.asText?)) =
      some r.condition :=
    Slots.defaulted_map_self (hlookup _) (fun _ => rfl) fun _ _ => rfl
  have hdecision : slots.defaulted "action" blank.decision Decision.ofJson? =
      some r.decision :=
    Slots.defaulted_eq (hlookup _) r.decision.ofJson?_toJson
  have hpriority : slots.defaulted "priority" blank.priority (·.asInt32?) = some r.priority :=
    Slots.defaulted_eq (hlookup _) (Value.asInt32?_int _)
  have henabled : slots.defaulted "enabled" blank.enabled (·.asBool?) = some r.enabled :=
    Slots.defaulted_eq (hlookup _) rfl
  rw [ofJson?, hslots]
  simp only [Option.bind_eq_bind, Option.bind_some, hid, hname, hcondition, hdecision, hpriority,
    henabled]
  rfl

end Rule

namespace Rules

theorem isSpelled_toJson (r : Rules) : r.toJson.isSpelled = true := by
  have hrules : (Value.array (r.rules.map Rule.toJson)).isSpelled = true :=
    Value.isSpelled_array_map fun rule _ => rule.isSpelled_toJson
  apply Value.isSpelled_record
  simp [hrules]
  simp [Value.isSpelled, Value.text, Decision.toJson]

theorem ofJson?_toJson (r : Rules) : ofJson? r.toJson = some r := by
  obtain ⟨slots, hslots, hlookup⟩ : ∃ slots, r.toJson.slots? schema = some slots ∧ _ :=
    Value.slots?_ofNames rfl (by decide)
  have hdefault : slots.defaulted "defaultAction" blank.default Decision.ofJson? =
      some r.default :=
    Slots.defaulted_eq (hlookup _) r.default.ofJson?_toJson
  have hmode : slots.defaulted "evaluationMode" blank.mode RuleMode.ofJson? = some r.mode :=
    Slots.defaulted_eq (hlookup _) rfl
  have hrules : slots.defaulted "rules" blank.rules (·.asList? Rule.ofJson?) = some r.rules :=
    Slots.defaulted_eq (hlookup _) (Value.asList?_map fun rule _ => rule.ofJson?_toJson)
  rw [ofJson?, hslots]
  simp only [Option.bind_eq_bind, Option.bind_some, hdefault, hmode, hrules]
  rfl

end Rules

/-! ## Actions -/

namespace Action

theorem isSpelled_toJson (a : Action) : a.toJson.isSpelled = true := by
  apply Value.isSpelled_record
  simp [Value.isSpelled_int, Value.isSpelled, Value.text]

theorem fits_toJson (room : Nat) (a : Action) : a.toJson.fits (room + 1) = true := by
  apply Value.fits_record
  simp [Value.fits_text, Value.fits_int32, Value.fits_uint32]

theorem ofJson?_toJson (a : Action) : ofJson? a.toJson = some a := by
  obtain ⟨slots, hslots, hlookup⟩ : ∃ slots, a.toJson.slots? schema = some slots ∧ _ :=
    Value.slots?_ofNames rfl (by decide)
  have hkind : slots.required "type" ActionKind.ofJson? = some a.kind := by
    apply Slots.required_eq (hlookup _)
    cases a.kind <;> rfl
  have hdescription : slots.defaulted "description" "" (·.asText?) = some a.description :=
    Slots.defaulted_eq (hlookup _) rfl
  have hduration : slots.defaulted "duration" none (·.asOption? (·.asUInt32?)) =
      some a.duration :=
    Slots.defaulted_map_self (hlookup _) (fun _ => rfl) fun n _ => Value.asUInt32?_int n
  have hpriority : slots.defaulted "priority" 0 (·.asInt32?) = some a.priority :=
    Slots.defaulted_eq (hlookup _) (Value.asInt32?_int _)
  have hstatus : slots.defaulted "status" .pending ActionStatus.ofJson? = some a.status := by
    apply Slots.defaulted_eq (hlookup _)
    cases a.status <;> rfl
  rw [ofJson?, hslots]
  simp only [Option.bind_eq_bind, Option.bind_some, hkind, hdescription, hduration, hpriority,
    hstatus]
  rfl

theorem listOfJson?_listToJson (actions : List Action) :
    listOfJson? (listToJson actions) = some actions := by
  have hmany : (listToJson actions).asList? ofJson? = some actions :=
    Value.asList?_map fun a _ => a.ofJson?_toJson
  rw [listOfJson?, hmany]

end Action

/-! ## The texts -/

theorem getLast?_renderMembers (members : List (Json.Literal × Value)) :
    (Value.renderMembers members).getLast? = some '}' := by
  induction members with
  | nil => rfl
  | cons m rest ih =>
      obtain ⟨name, v⟩ := m
      cases rest with
      | nil => simp [Value.renderMembers, List.getLast?_cons, List.getLast?_append]
      | cons next rest =>
          rw [Value.renderMembers.eq_def]
          simp [List.getLast?_cons, List.getLast?_append, ih]

theorem getLast?_renderItems (items : List Value) :
    (Value.renderItems items).getLast? = some ']' := by
  induction items with
  | nil => rfl
  | cons v rest ih =>
      cases rest with
      | nil => simp [Value.renderItems, List.getLast?_append]
      | cons next rest =>
          rw [Value.renderItems.eq_def]
          simp [List.getLast?_cons, List.getLast?_append, ih]

/-- The text of an object or an array is read as a document, since it is neither
blank nor null: it stands between two brackets. -/
theorem readDocument_bracketed {α : Type} (blank : α) (read : String → Option α) {v : Value}
    {first last : Char} {rest : List Char} (hrender : v.render = first :: rest)
    (hlast : rest.getLast? = some last) (hfirst : first = '{' ∨ first = '[')
    (hblank : Text.isBlank last = false) :
    readDocument blank read v.toText = (read v.toText).getD blank := by
  have htext : v.toText.toList = first :: rest := by
    rw [Value.toText, String.toList_ofList, hrender]
  have htrim : Text.trim v.toText = v.toText := by
    rw [Text.trim, Text.trimBlank_eq_self, String.ofList_toList]
    · intro c hc
      rw [htext] at hc
      cases hc
      rcases hfirst with rfl | rfl <;> decide
    · intro c hc
      rw [htext, List.getLast?_cons, hlast] at hc
      cases hc
      exact hblank
  rw [readDocument, htrim, if_neg]
  rintro (hempty | hnull)
  · rw [hempty] at htext
    cases htext
  · rw [hnull] at htext
    have hhead : "null".toList.head? = some first := congrArg List.head? htext
    rcases hfirst with rfl | rfl <;> exact absurd hhead (by decide)

theorem readDocument_object {α : Type} (blank : α) (read : String → Option α)
    (members : List (Json.Literal × Value)) :
    readDocument blank read (Value.object members).toText =
      (read (Value.object members).toText).getD blank :=
  readDocument_bracketed blank read rfl (getLast?_renderMembers members) (.inl rfl) (by decide)

theorem readDocument_array {α : Type} (blank : α) (read : String → Option α)
    (items : List Value) :
    readDocument blank read (Value.array items).toText =
      (read (Value.array items).toText).getD blank :=
  readDocument_bracketed blank read rfl (getLast?_renderItems items) (.inr rfl) (by decide)

/-- A document says the blank one, or what its text was read as. -/
theorem readDocument_cases {α : Type} (blank : α) (read : String → Option α) (s : String) :
    readDocument blank read s = blank ∨ ∃ text, read text = some (readDocument blank read s) := by
  by_cases hsilent : Text.trim s = "" ∨ Text.trim s = "null"
  · exact .inl (if_pos hsilent)
  · simp only [readDocument, if_neg hsilent]
    cases hread : read (Text.trim s) with
    | none => exact .inl rfl
    | some a => exact .inr ⟨_, hread⟩

/-- Conditions of whole seconds come back from their document. -/
theorem Conditions.ofDocument_toDocument {c : Conditions} (h : c.isWhole = true) :
    ofDocument c.toDocument = c := by
  have hread : (Value.ofText? c.toDocument).bind ofJson? = some c := by
    rw [toDocument, Value.ofText?_toText _ c.isSpelled_toJson, Option.bind_some]
    exact ofJson?_toJson h
  rw [ofDocument, toDocument, toJson, Value.record, readDocument_object]
  exact congrArg (Option.getD · blank) hread

/-- Whatever a text says, the conditions read from it are of whole seconds. -/
theorem Conditions.isWhole_ofDocument (s : String) : (ofDocument s).isWhole = true := by
  rcases readDocument_cases blank (fun s => (Value.ofText? s).bind ofJson?) s with
    hblank | ⟨text, hread⟩
  · rw [ofDocument, hblank]
    rfl
  · obtain ⟨v, -, hv⟩ := Option.bind_eq_some_iff.mp hread
    exact isWhole_of_ofJson? hv

/-- Rules come back from their document. -/
theorem Rules.ofDocument_toDocument (r : Rules) : ofDocument r.toDocument = r := by
  have hread : (Value.ofText? r.toDocument).bind ofJson? = some r := by
    rw [toDocument, Value.ofText?_toText _ r.isSpelled_toJson, Option.bind_some]
    exact r.ofJson?_toJson
  rw [ofDocument, toDocument, toJson, Value.record, readDocument_object]
  exact congrArg (Option.getD · blank) hread

/-- Actions come back from their document. -/
theorem Action.ofDocument_toDocument (actions : List Action) :
    ofDocument (toDocument actions) = actions := by
  have hspelled : (listToJson actions).isSpelled = true :=
    Value.isSpelled_array_map fun a _ => a.isSpelled_toJson
  have hstrict : (listToJson actions).isStrict = true :=
    Value.fits_array_map fun a _ => a.fits_toJson _
  have hread : (Value.ofStrictText? (toDocument actions)).bind listOfJson? = some actions := by
    rw [toDocument, Value.ofStrictText?_toText hspelled hstrict, Option.bind_some]
    exact listOfJson?_listToJson actions
  rw [ofDocument, toDocument, listToJson, readDocument_array]
  exact congrArg (Option.getD · []) hread

/-! ## All three documents -/

/-- Rules, conditions of whole seconds and actions are what their documents say. And
what a text says as one of the three, whatever the text is, it still says when it
was written anew. -/
theorem documents_come_back :
    (∀ r : Rules, .ofDocument r.toDocument = r) ∧
      (∀ c : Conditions, c.isWhole = true → .ofDocument c.toDocument = c) ∧
      (∀ actions : List Action, Action.ofDocument (Action.toDocument actions) = actions) ∧
      ∀ s : String,
        Rules.ofDocument (Rules.ofDocument s).toDocument = Rules.ofDocument s ∧
          Conditions.ofDocument (Conditions.ofDocument s).toDocument =
            Conditions.ofDocument s ∧
          Action.ofDocument (Action.toDocument (Action.ofDocument s)) = Action.ofDocument s := by
  refine ⟨Rules.ofDocument_toDocument, fun c => Conditions.ofDocument_toDocument,
    Action.ofDocument_toDocument, ?_⟩
  intro s
  have hwhole := Conditions.isWhole_ofDocument s
  exact ⟨Rules.ofDocument_toDocument _, Conditions.ofDocument_toDocument hwhole,
    Action.ofDocument_toDocument _⟩

/-- Conditions of one window, from the leap second before midnight to the one before
six. -/
def Conditions.sampleNight : Conditions :=
  { blank with time := some ⟨[⟨⟨86399, 1000000000, by decide, by decide⟩,
    ⟨21599, 1000000000, by decide, by decide⟩⟩], []⟩ }

theorem documents_come_back_sample :
    Conditions.sampleNight.isWhole = true ∧
      .ofDocument Conditions.sampleNight.toDocument = Conditions.sampleNight := by
  have hwhole : Conditions.sampleNight.isWhole = true := by decide
  obtain ⟨-, hconditions, -⟩ := documents_come_back
  exact ⟨hwhole, hconditions _ hwhole⟩

end DecisionPoint
