import DecisionPoint.Json.Record

/-!
Records under decoding: the object of the members that are present decodes to
their values, field by field, where every member is named as its field is and
no name comes twice. Beside it, that the leaves of records read back.
-/

namespace DecisionPoint.Json

namespace Slots

def present (members : List (String × Option Value)) : Slots :=
  members.filterMap fun (name, value) => value.map (name, ·)

theorem lookup_present_of_notMem {members : List (String × Option Value)} {name : String}
    (h : name ∉ members.map Prod.fst) : (present members).lookup name = none := by
  induction members with
  | nil => rfl
  | cons m members ih =>
      obtain ⟨key, value⟩ := m
      simp only [List.map_cons, List.mem_cons, not_or] at h
      have hrest := ih h.2
      cases value with
      | none => exact hrest
      | some v =>
          change List.lookup name ((key, v) :: present members) = none
          rw [List.lookup_cons, beq_false_of_ne h.1]
          exact hrest

/-- A member that is present is found under its name. -/
theorem lookup_present {members : List (String × Option Value)}
    (hdistinct : (members.map Prod.fst).Nodup) (name : String) :
    (present members).lookup name = (members.lookup name).join := by
  induction members with
  | nil => rfl
  | cons m members ih =>
      obtain ⟨key, value⟩ := m
      obtain ⟨hnew, hrest⟩ := List.nodup_cons.mp hdistinct
      by_cases hname : name = key
      · subst hname
        rw [List.lookup_cons_self, Option.join_some]
        cases value with
        | none =>
            change (present members).lookup name = none
            exact lookup_present_of_notMem hnew
        | some v => exact List.lookup_cons_self
      · rw [List.lookup_cons, beq_false_of_ne hname]
        cases value with
        | none => exact ih hrest
        | some v =>
            change List.lookup name ((key, v) :: present members) = _
            rw [List.lookup_cons, beq_false_of_ne hname]
            exact ih hrest

/-- The members of a record are sorted into its fields as they were given. -/
theorem ofMembers?_present {schema : Schema} {members : List (String × Option Value)}
    (hown : ∀ m ∈ members, schema.field? m.1 = some m.1)
    (hdistinct : (members.map Prod.fst).Nodup) :
    ofMembers? schema (members.filterMap fun (name, value) =>
      value.map fun v => (some name, v)) = some (present members) := by
  induction members with
  | nil => rfl
  | cons m members ih =>
      obtain ⟨key, value⟩ := m
      obtain ⟨hnew, hrest⟩ := List.nodup_cons.mp hdistinct
      have htail := ih (fun m hm => hown m (List.mem_cons_of_mem _ hm)) hrest
      cases value with
      | none => exact htail
      | some v =>
          have hfield : schema.field? key = some key := hown (key, some v) List.mem_cons_self
          simp only [List.filterMap_cons, Option.map_some, ofMembers?, htail,
            Option.bind_eq_bind, Option.bind_some, hfield, lookup_present_of_notMem hnew]
          rfl

/-! ## Fields -/

theorem required_eq {slots : Slots} {name : String} {v : Value} {α : Type} {a : α}
    {decode : Value → Option α} (hlookup : slots.lookup name = some v)
    (hback : decode v = some a) : slots.required name decode = some a := by
  rw [required, hlookup]
  exact hback

theorem defaulted_eq {slots : Slots} {name : String} {v : Value} {α : Type} {a default : α}
    {decode : Value → Option α} (hlookup : slots.lookup name = some v)
    (hback : decode v = some a) : slots.defaulted name default decode = some a := by
  rw [defaulted, hlookup]
  exact hback

/-- A field that is left out where it has no value reads back, unless its value
does not. -/
theorem defaulted_map {slots : Slots} {name : String} {α : Type} {x : Option α}
    {encode : α → Value} {decode : Value → Option α} {p : α → Bool}
    (hlookup : slots.lookup name = x.map encode)
    (hnull : ∀ a, (encode a).asOption? decode = (decode (encode a)).map some)
    (hback : ∀ a, x = some a → decode (encode a) = if p a then some a else none) :
    slots.defaulted name none (·.asOption? decode) = if x.all p then some x else none := by
  cases x with
  | none => rw [defaulted, hlookup]; rfl
  | some a =>
      have hdecode := hback a rfl
      rw [defaulted, hlookup, Option.map_some]
      simp only
      rw [hnull, hdecode, Option.all_some]
      split <;> rfl

/-- `defaulted_map` for values that all read back. -/
theorem defaulted_map_self {slots : Slots} {name : String} {α : Type} {x : Option α}
    {encode : α → Value} {decode : Value → Option α}
    (hlookup : slots.lookup name = x.map encode)
    (hnull : ∀ a, (encode a).asOption? decode = (decode (encode a)).map some)
    (hback : ∀ a, x = some a → decode (encode a) = some a) :
    slots.defaulted name none (·.asOption? decode) = some x := by
  have hall := defaulted_map (p := fun _ => true) hlookup hnull fun a ha => by
    rw [hback a ha, if_pos rfl]
  rw [hall]
  cases x <;> rfl

end Slots

theorem Schema.field?_ofNames {names : List String} {name : String} (h : name ∈ names) :
    (Schema.ofNames names).field? name = some name := by
  induction names with
  | nil => cases h
  | cons first names ih =>
      by_cases hfirst : first = name
      · simp [Schema.field?, Schema.ofNames, hfirst]
      · have hrest : name ∈ names := by
          rcases List.mem_cons.mp h with heq | htail
          · exact absurd heq.symm hfirst
          · exact htail
        have := ih hrest
        simp only [Schema.field?, Schema.ofNames] at this
        simpa [Schema.field?, Schema.ofNames, hfirst] using this

namespace Value

/-- A record whose members are named as the fields of a schema are has a slot for
each member that is present, and no other. -/
theorem slots?_record {schema : Schema} {members : List (String × Option Value)}
    (hown : ∀ m ∈ members, schema.field? m.1 = some m.1)
    (hdistinct : (members.map Prod.fst).Nodup) :
    ∃ slots, (record members).slots? schema = some slots ∧
      ∀ name, slots.lookup name = (members.lookup name).join :=
  ⟨Slots.present members, Slots.ofMembers?_present hown hdistinct, Slots.lookup_present hdistinct⟩

/-- `slots?_record` for fields that have no further names. -/
theorem slots?_ofNames {names : List String} {members : List (String × Option Value)}
    (hnames : members.map Prod.fst = names) (hdistinct : names.Nodup) :
    ∃ slots, (record members).slots? (.ofNames names) = some slots ∧
      ∀ name, slots.lookup name = (members.lookup name).join := by
  subst hnames
  exact slots?_record (fun m hm => Schema.field?_ofNames (List.mem_map_of_mem hm)) hdistinct

/-! ## Leaves -/

theorem asText?_text (s : String) : (text s).asText? = some s :=
  rfl

theorem asInt?_int {i : Int} (hlow : -9223372036854775808 ≤ i) (hhigh : i < 18446744073709551616) :
    (int i).asInt? = some i := by
  have hleast : Nat.pow 2 63 = 9223372036854775808 := rfl
  have hsize : UInt64.size = 18446744073709551616 := rfl
  simp only [int, asInt?, Number.ofInt, Number.integer?, ne_eq, not_true_eq_false, or_self,
    if_false, decide_eq_true_eq, hleast, hsize]
  by_cases hneg : i < 0
  · rw [if_pos hneg, if_pos (by omega)]
    congr 1
    omega
  · rw [if_neg hneg, if_pos (by omega)]
    congr 1
    omega

theorem asInt32?_int (i : Int32) : (int i.toInt).asInt32? = some i := by
  have hleast : Int32.minValue.toInt = -2147483648 := rfl
  have hgreatest : Int32.maxValue.toInt = 2147483647 := rfl
  have hlow := i.le_toInt
  have hhigh := i.toInt_lt
  rw [asInt32?, asInt?_int (by omega) (by omega)]
  simp only [Option.bind_eq_bind, Option.bind_some]
  rw [if_pos (by omega), Int32.ofInt_toInt]

theorem asUInt32?_of_asInt? {v : Value} {i : Int} (h : v.asInt? = some i) (hlow : 0 ≤ i)
    (hhigh : i < UInt32.size) : v.asUInt32? = some (UInt32.ofNat i.toNat) := by
  rw [asUInt32?, h]
  simp only [Option.bind_eq_bind, Option.bind_some]
  rw [if_pos ⟨hlow, hhigh⟩]

theorem asUInt32?_int (n : UInt32) : (int n.toNat).asUInt32? = some n := by
  have hsize : UInt32.size = 4294967296 := rfl
  have hhigh := n.toNat_lt
  rw [asUInt32?_of_asInt? (asInt?_int (by omega) (by omega)) (by omega) (by omega),
    Int.toNat_natCast, UInt32.ofNat_toNat]

theorem asOption?_textOrNull (s : Option String) :
    (textOrNull s).asOption? asText? = some s := by
  cases s <;> rfl

/-- A list of which every item reads back as itself or not at all reads back as
itself where all items do. -/
theorem asList?_map_if {α : Type} {decode : Value → Option α} {encode : α → Value}
    {p : α → Bool} {xs : List α}
    (h : ∀ x ∈ xs, decode (encode x) = if p x then some x else none) :
    (array (xs.map encode)).asList? decode = if xs.all p then some xs else none := by
  change (xs.map encode).mapM decode = _
  induction xs with
  | nil => rfl
  | cons x xs ih =>
      rw [List.map_cons, List.mapM_cons, h x List.mem_cons_self,
        ih fun y hy => h y (List.mem_cons_of_mem _ hy), List.all_cons]
      cases p x <;> cases xs.all p <;> rfl

theorem asList?_map {α : Type} {decode : Value → Option α} {encode : α → Value} {xs : List α}
    (h : ∀ x ∈ xs, decode (encode x) = some x) :
    (array (xs.map encode)).asList? decode = some xs := by
  have hall : xs.all (fun _ => true) = true := List.all_eq_true.mpr fun _ _ => rfl
  rw [asList?_map_if (p := fun _ => true) fun x hx => by rw [h x hx, if_pos rfl], hall,
    if_pos rfl]

/-! ## What was read -/

theorem of_asOption? {α : Type} {decode : Value → Option α} {v : Value} {a : α}
    (h : v.asOption? decode = some (some a)) : decode v = some a := by
  cases v with
  | null => cases h
  | _ =>
      obtain ⟨b, hb, heq⟩ := Option.map_eq_some_iff.mp h
      cases heq
      exact hb

theorem exists_of_mem_asList? {α : Type} {decode : Value → Option α} {v : Value} {xs : List α}
    (h : v.asList? decode = some xs) {x : α} (hx : x ∈ xs) : ∃ item, decode item = some x := by
  cases v with
  | array items =>
      change items.mapM decode = some xs at h
      induction items generalizing xs with
      | nil =>
          cases h
          cases hx
      | cons item items ih =>
          simp only [List.mapM_cons, Option.bind_eq_bind, Option.bind_eq_some_iff] at h
          obtain ⟨first, hfirst, rest, hrest, heq⟩ := h
          cases heq
          rcases List.mem_cons.mp hx with rfl | htail
          · exact ⟨item, hfirst⟩
          · exact ih htail hrest
  | _ => cases h

end Value

/-- What a field holds is its default, or was read from some value. -/
theorem Slots.of_defaulted {slots : Slots} {name : String} {α : Type} {a default : α}
    {decode : Value → Option α} (h : slots.defaulted name default decode = some a) :
    a = default ∨ ∃ v, decode v = some a := by
  unfold defaulted at h
  split at h
  · cases h
    exact .inl rfl
  · exact .inr ⟨_, h⟩

end DecisionPoint.Json
