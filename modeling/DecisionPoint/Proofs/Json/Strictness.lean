import DecisionPoint.Proofs.Json.Fields
import DecisionPoint.Proofs.Json.Spelling

/-!
Trees in order throughout. A record or a list of leaves that are in order nests
no deeper than its own parts and one level more, so what is written of it is
also read where every part of a text is judged.
-/

namespace DecisionPoint.Json.Value

theorem fits_text (room : Nat) (s : String) : (text s).fits room = true :=
  rfl

theorem fits_int {i : Int} (room : Nat) (hlow : -9223372036854775808 ≤ i)
    (hhigh : i < 18446744073709551616) : (int i).fits room = true := by
  have hinteger : (Number.ofInt i).integer? = some i := asInt?_int hlow hhigh
  simp [int, fits, Number.quantity?, hinteger]

theorem fits_int32 (room : Nat) (i : Int32) : (int i.toInt).fits room = true := by
  have hlow := i.le_toInt
  have hhigh := i.toInt_lt
  exact fits_int room (by omega) (by omega)

theorem fits_uint32 (room : Nat) (n : UInt32) : (int n.toNat).fits room = true := by
  have hhigh := n.toNat_lt
  exact fits_int room (by omega) (by omega)

theorem itemsFit_iff {room : Nat} (items : List Value) :
    itemsFit room items = true ↔ ∀ v ∈ items, v.fits room = true := by
  induction items with
  | nil => simp [itemsFit]
  | cons v vs ih => simp [itemsFit, ih]

theorem membersFit_iff {room : Nat} (members : List (Literal × Value)) :
    membersFit room members = true ↔
      ∀ m ∈ members, m.1.isSome = true ∧ m.2.fits room = true := by
  induction members with
  | nil => simp [membersFit]
  | cons m members ih => simp [membersFit, ih]

/-- A record fits where the values that are present do, one level deeper. -/
theorem fits_record {room : Nat} {members : List (String × Option Value)}
    (h : ∀ m ∈ members, ∀ v ∈ m.2, v.fits room = true) :
    (record members).fits (room + 1) = true := by
  change membersFit room _ = true
  rw [membersFit_iff]
  intro m hm
  obtain ⟨name, v, hmem, rfl⟩ := exists_of_mem_record hm
  exact ⟨rfl, h _ hmem v rfl⟩

theorem fits_array_map {α : Type} {room : Nat} {f : α → Value} {xs : List α}
    (h : ∀ x ∈ xs, (f x).fits room = true) : (array (xs.map f)).fits (room + 1) = true := by
  change itemsFit room (xs.map f) = true
  rw [itemsFit_iff]
  intro v hv
  obtain ⟨x, hx, rfl⟩ := List.mem_map.mp hv
  exact h x hx

theorem ofStrictText?_toText {v : Value} (hspelled : v.isSpelled = true)
    (hstrict : v.isStrict = true) : ofStrictText? v.toText = some v := by
  rw [ofStrictText?, ofText?_toText v hspelled]
  exact if_pos hstrict

end DecisionPoint.Json.Value
