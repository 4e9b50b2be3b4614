import DecisionPoint.Proofs.Json.Strictness
import DecisionPoint.Proofs.Time.Received
import DecisionPoint.Request
import Mathlib.Data.List.Nodup
import Mathlib.Data.String.Basic
import Mathlib.Tactic.Tauto

/-!
Requests written and read back. The members of an object are decoded in the
order of their names, whatever order they were written in, and the text of a
request decodes to the request again unless an instant of it is one that the
wire profile cannot write.
-/

namespace DecisionPoint.Request

open Json (Slots Value)
open Time (Date Instant)

/-! ## Members by name -/

theorem mem_insertMember {m n : String × Value} {ms : List (String × Value)}
    (h : n ∈ insertMember m ms) : n = m ∨ n ∈ ms := by
  induction ms with
  | nil => exact .inl (List.mem_singleton.mp h)
  | cons first ms ih =>
      simp only [insertMember] at h
      split at h
      · exact List.mem_cons.mp h
      · split at h
        · rcases List.mem_cons.mp h with heq | htail
          · exact .inl heq
          · exact .inr (List.mem_cons_of_mem _ htail)
        · rcases List.mem_cons.mp h with rfl | htail
          · exact .inr List.mem_cons_self
          · exact (ih htail).imp_right (List.mem_cons_of_mem _)

/-- Members stay sorted by name when one is put in. -/
theorem insertMember_sorted {m : String × Value} {ms : List (String × Value)}
    (h : ms.Pairwise (·.1 < ·.1)) : (insertMember m ms).Pairwise (·.1 < ·.1) := by
  induction ms with
  | nil => exact List.pairwise_singleton _ _
  | cons first ms ih =>
      obtain ⟨hfirst, hrest⟩ := List.pairwise_cons.mp h
      simp only [insertMember]
      split
      · rename_i hless
        refine List.pairwise_cons.mpr ⟨?_, h⟩
        intro n hn
        rcases List.mem_cons.mp hn with rfl | htail
        · exact hless
        · exact lt_trans hless (hfirst n htail)
      · rename_i hnot
        split
        · rename_i heq
          exact List.pairwise_cons.mpr ⟨fun n hn => heq ▸ hfirst n hn, hrest⟩
        · rename_i hne
          refine List.pairwise_cons.mpr ⟨?_, ih hrest⟩
          intro n hn
          rcases mem_insertMember hn with rfl | htail
          · exact lt_of_le_of_ne (not_lt.mp hnot) (Ne.symm hne)
          · exact hfirst n htail

theorem insertMember_perm {m : String × Value} {ms : List (String × Value)}
    (h : m.1 ∉ ms.map Prod.fst) : (insertMember m ms).Perm (m :: ms) := by
  induction ms with
  | nil => exact .refl _
  | cons first ms ih =>
      simp only [List.map_cons, List.mem_cons, not_or] at h
      simp only [insertMember, if_neg h.1]
      split
      · exact .refl _
      · exact ((ih h.2).cons first).trans (.swap m first ms)

/-- Members whose names are all different are sorted, none is left out. -/
theorem foldl_insertMember {members sorted : List (String × Value)}
    (hsorted : sorted.Pairwise (·.1 < ·.1))
    (hdistinct : ((members ++ sorted).map Prod.fst).Nodup) :
    (members.foldl (fun ms m => insertMember m ms) sorted).Pairwise (·.1 < ·.1) ∧
      (members.foldl (fun ms m => insertMember m ms) sorted).Perm (members ++ sorted) := by
  induction members generalizing sorted with
  | nil => exact ⟨hsorted, .refl _⟩
  | cons m members ih =>
      obtain ⟨hnew, hrest⟩ := List.nodup_cons.mp hdistinct
      have hinsert : (insertMember m sorted).Perm (m :: sorted) := by
        apply insertMember_perm
        intro hmem
        apply hnew
        change m.1 ∈ (members ++ sorted).map Prod.fst
        rw [List.map_append]
        exact List.mem_append_right _ hmem
      have hmiddle : (members ++ insertMember m sorted).Perm (m :: (members ++ sorted)) :=
        (hinsert.append_left members).trans List.perm_middle
      obtain ⟨hpairs, hperm⟩ := ih (insertMember_sorted hsorted)
        ((hmiddle.map Prod.fst).nodup_iff.mpr hdistinct)
      exact ⟨hpairs, hperm.trans hmiddle⟩

/-- The members of a record, sorted, are those of the same record in the order
of the names. -/
theorem sortMembers_record {members sorted : List (String × Option Value)}
    (hperm : members.Perm sorted) (hsorted : sorted.Pairwise (·.1 < ·.1)) :
    sortMembers (members.filterMap fun (name, value) => value.map fun v => (some name, v)) =
      Slots.present sorted := by
  have hnamed : sortMembers
      (members.filterMap fun (name, value) => value.map fun v => (some name, v)) =
      (Slots.present members).foldl (fun ms m => insertMember m ms) [] := by
    simp only [sortMembers, Slots.present, List.foldl_filterMap]
    congr 1
    funext ms (name, value)
    cases value <;> rfl
  have hpresent : (Slots.present members).Perm (Slots.present sorted) := hperm.filterMap _
  have hpairs : (Slots.present sorted).Pairwise (·.1 < ·.1) := by
    apply hsorted.filterMap
    intro m n hless v hv w hw
    obtain ⟨_, _, rfl⟩ := Option.map_eq_some_iff.mp hv
    obtain ⟨_, _, rfl⟩ := Option.map_eq_some_iff.mp hw
    exact hless
  have hdistinct : ((Slots.present members ++ []).map Prod.fst).Nodup := by
    rw [List.append_nil, (hpresent.map Prod.fst).nodup_iff]
    exact (List.pairwise_map.mpr hpairs).imp ne_of_lt
  obtain ⟨hinserted, hall⟩ := foldl_insertMember List.Pairwise.nil hdistinct
  rw [List.append_nil] at hall
  rw [hnamed]
  exact (hall.trans hpresent).eq_of_pairwise
    (fun m n _ _ hless hgreater => absurd hgreater (lt_asymm hless)) hinserted hpairs

theorem of_bind_ok {ε α β : Type} {x : Except ε α} {f : α → Except ε β} {b : β}
    (h : x >>= f = .ok b) : ∃ a, x = .ok a ∧ f a = .ok b := by
  cases x with
  | error e => cases h
  | ok a => exact ⟨a, rfl, h⟩

/-! ## The members of a request -/

/-- The members of a request whose instants are spelled in the given ways. -/
def members (r : Request) (timestamp : String) (expiresAt : Option String) :
    List (String × Option Value) := [
  ("resourceType", some (.text r.resourceType)),
  ("resourceId", r.resourceId.map .text),
  ("action", some (.text r.action)),
  ("userId", some (.text r.user)),
  ("tenantKey", r.tenantField.map .text),
  ("clientIp", r.clientIp.map .text),
  ("timestamp", some (.text timestamp)),
  ("expiresAt", expiresAt.map .text)]

def membersByName (r : Request) (timestamp : String) (expiresAt : Option String) :
    List (String × Option Value) := [
  ("action", some (.text r.action)),
  ("clientIp", r.clientIp.map .text),
  ("expiresAt", expiresAt.map .text),
  ("resourceId", r.resourceId.map .text),
  ("resourceType", some (.text r.resourceType)),
  ("tenantKey", r.tenantField.map .text),
  ("timestamp", some (.text timestamp)),
  ("userId", some (.text r.user))]

section Members

variable (r : Request) (timestamp : String) (expiresAt : Option String)

theorem membersByName_sorted : (r.membersByName timestamp expiresAt).Pairwise (·.1 < ·.1) := by
  rw [← List.pairwise_map]
  change ["action", "clientIp", "expiresAt", "resourceId", "resourceType", "tenantKey",
    "timestamp", "userId"].Pairwise (· < ·)
  decide

theorem members_perm :
    (r.members timestamp expiresAt).Perm (r.membersByName timestamp expiresAt) := by
  apply (List.perm_ext_iff_of_nodup ?_ ?_).mpr
  · intro m
    simp only [members, membersByName, List.mem_cons, List.not_mem_nil]
    tauto
  · apply List.Nodup.of_map Prod.fst
    change ["resourceType", "resourceId", "action", "userId", "tenantKey", "clientIp", "timestamp",
      "expiresAt"].Nodup
    decide
  · apply List.Nodup.of_map Prod.fst
    exact (List.pairwise_map.mpr (r.membersByName_sorted timestamp expiresAt)).imp ne_of_lt

end Members

/-! ## Decoding member by member -/

def Draft.addOptional (d : Draft) (m : String × Option Value) : Except RequestDefect Draft :=
  m.2.elim (.ok d) fun v => d.add (m.1, v)

theorem foldlM_present (members : List (String × Option Value)) (d : Draft) :
    (Slots.present members).foldlM Draft.add d = members.foldlM Draft.addOptional d := by
  rw [Slots.present, List.foldlM_filterMap]
  congr 1
  funext d (name, value)
  cases value <;> rfl

def instantOf (s : String) : Except RequestDefect Instant :=
  timestampOf (.text s)

theorem instantOf_eq (s : String) :
    instantOf s = (Instant.ofWireText? s.toList).elim (.error (.badTimestamp s)) .ok := by
  have htext : textOf (.text s) = pure s := rfl
  rw [instantOf, timestampOf, htext, pure_bind]
  cases Instant.ofWireText? s.toList <;> rfl

namespace Draft

theorem addOptional_text (d : Draft) (s : String) :
    d.addOptional ("action", some (.text s)) = pure { d with action := s } ∧
      d.addOptional ("resourceType", some (.text s)) = pure { d with resourceType := s } ∧
      d.addOptional ("userId", some (.text s)) = pure { d with user := s } :=
  ⟨rfl, rfl, rfl⟩

/-- A member that may be missing is put into a draft that has none of it yet, as it is
decoded. -/
theorem addOptional_optional {α : Type} (name : String) (decode : Value → Except RequestDefect α)
    (put : Draft → Option α → Draft)
    (hadd : ∀ d v, d.add (name, v) = (do
      let y ← optionalOf decode v
      pure (put d y)))
    (d : Draft) (h : put d none = d) (x : Option String) :
    d.addOptional (name, x.map .text) = (do
      let y ← x.mapM fun s => decode (.text s)
      pure (put d y)) := by
  cases x with
  | none => exact congrArg Except.ok h.symm
  | some s =>
      have hoptional : optionalOf decode (.text s) = (decode (.text s)).map some := rfl
      rw [addOptional, Option.map_some, Option.elim_some, hadd, Option.mapM_some, hoptional]
      cases decode (.text s) <;> rfl

theorem mapM_textOf (x : Option String) : (x.mapM fun s => textOf (.text s)) = pure x := by
  cases x <;> rfl

theorem addOptional_timestamp (d : Draft) (s : String) :
    d.addOptional ("timestamp", some (.text s)) = (do
      let timestamp ← instantOf s
      pure { d with timestamp := some timestamp }) :=
  rfl

end Draft

/-- The members of a request decode to its fields, its expiry before its timestamp. -/
theorem foldlM_membersByName (r : Request) (timestamp : String) (expiresAt : Option String) :
    (Slots.present (r.membersByName timestamp expiresAt)).foldlM Draft.add .blank = (do
      let expiresAt ← expiresAt.mapM instantOf
      let timestamp ← instantOf timestamp
      pure ⟨r.resourceType, r.resourceId, r.action, r.user, r.tenantField, r.clientIp,
        some timestamp, expiresAt⟩) := by
  have hclientIp := Draft.addOptional_optional "clientIp" textOf
    (fun d x => { d with clientIp := x }) fun _ _ => rfl
  have hexpiresAt := Draft.addOptional_optional "expiresAt" timestampOf
    (fun d x => { d with expiresAt := x }) fun _ _ => rfl
  have hresourceId := Draft.addOptional_optional "resourceId" textOf
    (fun d x => { d with resourceId := x }) fun _ _ => rfl
  have htenantKey := Draft.addOptional_optional "tenantKey" textOf
    (fun d x => { d with tenantField := x }) fun _ _ => rfl
  rw [foldlM_present]
  simp only [Draft.blank, membersByName, List.foldlM_cons, List.foldlM_nil, pure_bind, bind_assoc,
    Draft.mapM_textOf, Draft.addOptional_text, hclientIp, hexpiresAt, hresourceId, htenantKey,
    Draft.addOptional_timestamp]
  rfl

theorem members_inOrder (r : Request) (timestamp : String) (expiresAt : Option String) :
    (Value.record (r.members timestamp expiresAt)).isSpelled = true ∧
      (Value.record (r.members timestamp expiresAt)).isStrict = true := by
  constructor
  · apply Value.isSpelled_record
    simp [members, Value.isSpelled, Value.text]
  · apply Value.fits_record
    simp [members, Value.fits_text]

/-- A request is read with its instants as they are spelled, the expiry before
the timestamp. -/
theorem ofText_members (r : Request) (timestamp : String) (expiresAt : Option String) :
    ofText (Value.record (r.members timestamp expiresAt)).toText =
      match (expiresAt.mapM instantOf, instantOf timestamp) with
      | (.ok u, .ok t) => .ok { r with timestamp := t, expiresAt := u }
      | (.error defect, _) => .error (.invalidRequest (.undecodable defect))
      | (_, .error defect) => .error (.invalidRequest (.undecodable defect)) := by
  obtain ⟨hspelled, hstrict⟩ := r.members_inOrder timestamp expiresAt
  have hsorted := sortMembers_record (r.members_perm timestamp expiresAt)
    (r.membersByName_sorted timestamp expiresAt)
  rw [ofText, Value.ofStrictText?_toText hspelled hstrict, Value.record]
  simp only [hsorted, foldlM_membersByName]
  cases expiresAt.mapM instantOf <;> cases instantOf timestamp <;> rfl

/-! ## Writing and reading back -/

/-- The instants of a request, in the order they are decoded. -/
def instants (r : Request) : List Instant :=
  r.expiresAt.toList ++ [r.timestamp]

/-- Whether the wire profile can write an instant: its year in UTC has four
digits. -/
def isWireInstant (t : Instant) : Bool :=
  Instant.isWireYear (Date.ofDay t.day).year

def cut (r : Request) : Request :=
  { r with
    timestamp := r.timestamp.truncateToMillis
    expiresAt := r.expiresAt.map Instant.truncateToMillis }

/-- The refusal of a request of which the instant `t` cannot be read. -/
def unreadable (t : Instant) : EngineError :=
  .invalidRequest (.undecodable (.badTimestamp (String.ofList t.wireText)))

theorem toJson_eq (r : Request) :
    r.toJson = .record (r.members (String.ofList r.timestamp.wireText)
      (r.expiresAt.map fun t => String.ofList t.wireText)) := by
  rw [toJson, members, Option.map_map]
  rfl

theorem instantOf_wireText (t : Instant) :
    instantOf (String.ofList t.wireText) =
      if isWireInstant t then .ok t.truncateToMillis
      else .error (.badTimestamp (String.ofList t.wireText)) := by
  rw [instantOf_eq, String.toList_ofList, Instant.ofWireText?_wireText, isWireInstant]
  cases Instant.isWireYear (Date.ofDay t.day).year <;> rfl

/-- Every request is read back from its text, its instants cut to
milliseconds, unless one of them lies in a year that the profile cannot write:
then the first of those, an expiry before the timestamp, is reported. -/
theorem ofText_toText (r : Request) :
    ofText r.toText =
      match r.instants.find? (!isWireInstant ·) with
      | none => .ok r.cut
      | some t => .error (unreadable t) := by
  rw [toText, toJson_eq, ofText_members, instants, cut, instantOf_wireText]
  cases r.expiresAt with
  | none => cases htimestamp : isWireInstant r.timestamp <;> simp [htimestamp] <;> rfl
  | some t =>
    rw [Option.map_some, Option.mapM_some, instantOf_wireText]
    cases hexpiry : isWireInstant t <;> cases htimestamp : isWireInstant r.timestamp <;>
      simp [hexpiry, htimestamp] <;> rfl

/-! ## Requests that were accepted -/

/-- Whether an instant was read from a wire text. -/
def IsReceived (t : Instant) : Prop :=
  ∃ cs, Instant.ofWireText? cs = some t

def Draft.IsReceived (d : Draft) : Prop :=
  (∀ t ∈ d.timestamp, Request.IsReceived t) ∧ ∀ t ∈ d.expiresAt, Request.IsReceived t

theorem isReceived_of_timestampOf {v : Value} {t : Instant} (h : timestampOf v = .ok t) :
    IsReceived t := by
  obtain ⟨s, -, hs⟩ := of_bind_ok h
  split at hs
  · rename_i u hu
    cases hs
    exact ⟨_, hu⟩
  · cases hs

theorem isReceived_of_optionalOf {v : Value} {x : Option Instant}
    (h : optionalOf timestampOf v = .ok x) : ∀ t ∈ x, IsReceived t := by
  unfold optionalOf at h
  split at h
  · cases h
    intro t ht
    cases ht
  · intro t ht
    cases ht
    cases hread : timestampOf v with
    | error e => rw [hread] at h; cases h
    | ok u =>
      rw [hread] at h
      cases h
      exact isReceived_of_timestampOf hread

/-- Decoding a member brings in no instant but one that was read. -/
theorem Draft.IsReceived.add {d e : Draft} {m : String × Value} (hd : d.IsReceived)
    (h : d.add m = .ok e) : e.IsReceived := by
  unfold Draft.add at h
  split at h
  case h_9 =>
    cases h
    exact hd
  all_goals
    obtain ⟨x, hx, heq⟩ := of_bind_ok h
    cases heq
  case h_7 => exact ⟨fun t ht => by cases ht; exact isReceived_of_timestampOf hx, hd.2⟩
  case h_8 => exact ⟨hd.1, isReceived_of_optionalOf hx⟩
  all_goals exact hd

theorem Draft.IsReceived.foldlM {d e : Draft} {members : List (String × Value)}
    (hd : d.IsReceived) (h : members.foldlM Draft.add d = .ok e) : e.IsReceived := by
  induction members generalizing d with
  | nil =>
    cases h
    exact hd
  | cons m members ih =>
      rw [List.foldlM_cons] at h
      obtain ⟨next, hnext, hrest⟩ := of_bind_ok h
      exact ih (hd.add hnext) hrest

/-- Every instant of an accepted request was read from its text. -/
theorem isReceived_of_ofText {s : String} {r : Request} (h : ofText s = .ok r) :
    ∀ t ∈ r.instants, IsReceived t := by
  unfold ofText at h
  split at h
  case h_3 =>
    split at h
    · rename_i members _ hr
      cases h
      obtain ⟨d, hfold, hfinish⟩ := of_bind_ok hr
      have hd := Draft.IsReceived.foldlM (d := .blank) ⟨nofun, nofun⟩ hfold
      unfold Draft.finish at hfinish
      split at hfinish
      · cases hfinish
      · rename_i timestamp htimestamp
        cases hfinish
        intro t ht
        rcases List.mem_append.mp ht with hexpiry | hstamp
        · exact hd.2 t (Option.mem_toList.mp hexpiry)
        · rw [List.mem_singleton.mp hstamp]
          exact hd.1 timestamp htimestamp
    · cases h
  all_goals cases h

/-- A request whose instants are whole milliseconds loses nothing to the cut. -/
theorem cut_eq_self {r : Request} (h : ∀ t ∈ r.instants, t.truncateToMillis = t) :
    r.cut = r := by
  have htimestamp : r.timestamp.truncateToMillis = r.timestamp :=
    h _ (List.mem_append_right _ (List.mem_singleton_self _))
  have hexpiry : r.expiresAt.map Instant.truncateToMillis = r.expiresAt := by
    cases hexpires : r.expiresAt with
    | none => rfl
    | some t =>
        have ht : t ∈ r.instants := by
          rw [instants, hexpires]
          exact List.mem_cons_self
        rw [Option.map_some, h t ht]
  rw [cut, htimestamp, hexpiry]

/-- A request that was accepted comes back from its text unless an instant of it
lies in a year outside those of four digits, which the profile cannot write.
An instant that was accepted lies in such a year only next to them: in the year
before year 0 or in the year 10000, where its offset moved it. -/
theorem accepted_comes_back {s : String} {r : Request} (h : ofText s = .ok r) :
    (∀ t ∈ r.instants, -1 ≤ (Date.ofDay t.day).year ∧ (Date.ofDay t.day).year ≤ 10000) ∧
      ofText r.toText =
        match r.instants.find? (!isWireInstant ·) with
        | none => .ok r
        | some t => .error (unreadable t) := by
  have hreceived := isReceived_of_ofText h
  have hread : ∀ t ∈ r.instants, t.truncateToMillis = t ∧
      -1 ≤ (Date.ofDay t.day).year ∧ (Date.ofDay t.day).year ≤ 10000 := by
    intro t ht
    obtain ⟨cs, hcs⟩ := hreceived t ht
    exact Instant.of_ofWireText? hcs
  have hcut := cut_eq_self fun t ht => (hread t ht).1
  refine ⟨fun t ht => (hread t ht).2, ?_⟩
  rw [ofText_toText, hcut]

/-- A request read from a text whose instants are spelled outside the profile. -/
def sample : Request :=
  { resourceType := "document", resourceId := none, action := "read", user := "user-1"
    tenantField := none, clientIp := some "10.0.0.1"
    timestamp := ⟨1483228799, 1123000000, .inr (by decide)⟩
    expiresAt := some ⟨253402300799, 0, .inl (by decide)⟩ }

/-- The text of `sample` with its instants spelled in the given ways. -/
def sampleText (timestamp expiresAt : String) : String :=
  (Value.record (sample.members timestamp (some expiresAt))).toText

theorem ofText_sampleText {timestamp expiresAt : String} {t u : Instant}
    (ht : Instant.ofWireText? timestamp.toList = some t)
    (hu : Instant.ofWireText? expiresAt.toList = some u) :
    ofText (sampleText timestamp expiresAt) =
      .ok { sample with timestamp := t, expiresAt := some u } := by
  rw [sampleText, ofText_members, instantOf_eq, Option.mapM_some, instantOf_eq, ht, hu]
  rfl

theorem accepted_comes_back_sample :
    ofText (sampleText "2016-12-31t23:59:60.1234567+00:00" "9999-12-31T18:59:59-05:00") =
      .ok sample ∧ ofText sample.toText = .ok sample := by
  have hread : ofText (sampleText "2016-12-31t23:59:60.1234567+00:00" "9999-12-31T18:59:59-05:00")
      = .ok sample := ofText_sampleText (by decide) (by decide)
  exact ⟨hread, by rw [(accepted_comes_back hread).2]; rfl⟩

/-- The timestamp of this request lies an hour before year 0 in UTC. -/
theorem moved_out_of_profile :
    let moved := { sample with timestamp := ⟨-62167222800, 0, .inl (by decide)⟩ }
    ofText (sampleText "0000-01-01T00:00:00+01:00" "9999-12-31T23:59:59Z") = .ok moved ∧
      ofText moved.toText = .error (unreadable moved.timestamp) ∧
      ofText moved.toText ≠ .ok moved := by
  intro moved
  have hread : ofText (sampleText "0000-01-01T00:00:00+01:00" "9999-12-31T23:59:59Z") =
      .ok moved := ofText_sampleText (by decide) (by decide)
  have hfirst : moved.instants.find? (!isWireInstant ·) = some moved.timestamp := by decide
  have hrefused : ofText moved.toText = .error (unreadable moved.timestamp) := by
    rw [ofText_toText, hfirst]
  refine ⟨hread, hrefused, ?_⟩
  rw [hrefused]
  exact nofun

end DecisionPoint.Request
