import DecisionPoint.Json.Printer
import DecisionPoint.Json.Reader
import DecisionPoint.Proofs.Text.Digits
import Mathlib.Tactic.SplitIfs

/-!
What is written reads back. A tree whose literals all spell a text and whose
numbers hold digits where digits belong is spelled; the compact text of a
spelled tree is read as that tree, whatever closes it, and its length is
always fuel enough.
-/

namespace DecisionPoint.Json

open Text

/-! ## Numbers -/

/-- Nothing that goes on a number literal. -/
def EndsNumber (rest : List Char) : Prop :=
  ∀ c ∈ rest.head?, c.isDigit = false ∧ c ≠ '.' ∧ c ≠ 'e' ∧ c ≠ 'E'

theorem endsNumber_nil : EndsNumber [] := by
  intro c hc
  cases hc

theorem EndsNumber.endsRun {rest : List Char} (h : EndsNumber rest) : EndsRun rest :=
  fun c hc => (h c hc).1

theorem endsNumber_cons {c : Char} {rest : List Char}
    (h : c.isDigit = false ∧ c ≠ '.' ∧ c ≠ 'e' ∧ c ≠ 'E') : EndsNumber (c :: rest) := by
  intro d hd
  cases hd
  exact h

namespace Number

/-- Whether the fraction of a literal is made of digits. -/
def isSpelled (n : Number) : Bool :=
  n.fraction.all Char.isDigit

theorem isSpelled_ofInt (i : Int) : (ofInt i).isSpelled = true :=
  rfl

theorem readRun_append {ds rest : List Char} (hds : ∀ c ∈ ds, c.isDigit = true)
    (hne : ds ≠ []) (hrest : EndsRun rest) : readRun (ds ++ rest) = some (ds, rest) := by
  simp only [readRun, takeWhile_run hds hrest, dropWhile_run hds hrest]
  rw [if_neg hne]

theorem readWhole_digits (n : Nat) {rest : List Char} (hrest : EndsRun rest) :
    readWhole (digits n ++ rest) = some (n, rest) := by
  have hrun := readRun_append (fun _ => isDigit_of_mem_digits) (digits_ne_nil n) hrest
  have hzero : ¬ ((digits n).head? = some '0' ∧ (digits n).length ≠ 1) :=
    fun h => head_digits_ne_zero n h.2 h.1
  simp only [readWhole, hrun, Option.bind_eq_bind, Option.bind_some]
  rw [if_neg hzero, digitsValue_digits]

theorem readFraction_append {ds rest : List Char} (hds : ∀ c ∈ ds, c.isDigit = true)
    (hrest : EndsRun rest) (hpoint : ∀ c ∈ rest.head?, c ≠ '.') :
    readFraction ((if ds = [] then [] else '.' :: ds) ++ rest) = some (ds, rest) := by
  by_cases hne : ds = []
  · subst hne
    cases rest with
    | nil => rfl
    | cons c rest =>
        have hc : c ≠ '.' := hpoint c rfl
        simp only [if_true, List.nil_append]
        unfold readFraction
        split
        · next heq => exact absurd (List.cons.inj heq).1 hc
        · rfl
  · rw [if_neg hne]
    exact readRun_append hds hne hrest

theorem readPower_integer (e : Int) {rest : List Char} (hrest : EndsRun rest) :
    readPower (integer e ++ rest) = some (some e, rest) := by
  have hrun : readRun (digits e.natAbs ++ rest) = some (digits e.natAbs, rest) :=
    readRun_append (fun _ => isDigit_of_mem_digits) (digits_ne_nil _) hrest
  by_cases hneg : e < 0
  · simp only [integer, if_pos hneg, List.cons_append, readPower, readSign, hrun,
      Option.bind_eq_bind, Option.bind_some, digitsValue_digits, if_true, Option.pure_def,
      Option.some.injEq, Prod.mk.injEq, and_true]
    omega
  · have hsign : readSign (digits e.natAbs ++ rest) = (false, digits e.natAbs ++ rest) := by
      cases hds : digits e.natAbs with
      | nil => exact absurd hds (digits_ne_nil _)
      | cons d ds =>
          have hd : d.isDigit = true := isDigit_of_mem_digits (n := e.natAbs) (by simp [hds])
          unfold readSign
          split
          · next heq => rw [(List.cons.inj heq).1] at hd; cases hd
          · next heq => rw [(List.cons.inj heq).1] at hd; cases hd
          · rfl
    simp only [integer, if_neg hneg, readPower, hsign, hrun, Option.bind_eq_bind,
      Option.bind_some, digitsValue_digits, Bool.false_eq_true, if_false, Option.pure_def,
      Option.some.injEq, Prod.mk.injEq, and_true]
    omega

def exponentText : Option Int → List Char
  | none => []
  | some e => 'e' :: integer e

theorem readExponent_append (exponent : Option Int) {rest : List Char}
    (hrest : EndsNumber rest) :
    readExponent (exponentText exponent ++ rest) = some (exponent, rest) := by
  cases exponent with
  | some e => exact readPower_integer e hrest.endsRun
  | none =>
      cases rest with
      | nil => rfl
      | cons c rest =>
          obtain ⟨-, -, hlower, hupper⟩ := hrest c rfl
          simp only [exponentText, List.nil_append]
          unfold readExponent
          split
          · next heq => exact absurd (List.cons.inj heq).1 hlower
          · next heq => exact absurd (List.cons.inj heq).1 hupper
          · rfl

theorem render_eq (n : Number) : n.render = (if n.negative then ['-'] else []) ++
    (digits n.whole ++ ((if n.fraction = [] then [] else '.' :: n.fraction) ++
      exponentText n.exponent)) := by
  rcases n with ⟨negative, whole, fraction, _ | e⟩ <;>
    simp [render, exponentText]

theorem readUnsigned_append (n : Number) (h : n.isSpelled = true) {rest : List Char}
    (hrest : EndsNumber rest) :
    readUnsigned n.negative (digits n.whole ++
      ((if n.fraction = [] then [] else '.' :: n.fraction) ++
        (exponentText n.exponent ++ rest))) = some (n, rest) := by
  have hdigits : ∀ c ∈ n.fraction, c.isDigit = true := List.all_eq_true.mp h
  have hexponent : EndsRun (exponentText n.exponent ++ rest) ∧
      ∀ c ∈ (exponentText n.exponent ++ rest).head?, c ≠ '.' := by
    cases n.exponent with
    | none => exact ⟨hrest.endsRun, fun c hc => (hrest c hc).2.1⟩
    | some e =>
        refine ⟨endsRun_cons (by decide), ?_⟩
        intro c hc
        cases hc
        decide
  have hfraction : EndsRun ((if n.fraction = [] then [] else '.' :: n.fraction) ++
      (exponentText n.exponent ++ rest)) := by
    by_cases hempty : n.fraction = []
    · rw [if_pos hempty]
      exact hexponent.1
    · rw [if_neg hempty]
      exact endsRun_cons (by decide)
  simp only [readUnsigned, readWhole_digits n.whole hfraction,
    readFraction_append hdigits hexponent.1 hexponent.2, readExponent_append n.exponent hrest,
    Option.bind_eq_bind, Option.bind_some, Option.pure_def]

/-- A number literal reads back in front of anything that does not go on it. -/
theorem read_render (n : Number) (h : n.isSpelled = true) {rest : List Char}
    (hrest : EndsNumber rest) : read (n.render ++ rest) = some (n, rest) := by
  have hbody := readUnsigned_append n h hrest
  rw [render_eq, List.append_assoc, List.append_assoc, List.append_assoc]
  cases hneg : n.negative with
  | true =>
      rw [hneg] at hbody
      exact hbody
  | false =>
      rw [hneg] at hbody
      rw [if_neg Bool.false_ne_true, List.nil_append, ← hbody]
      cases hds : digits n.whole with
      | nil => exact absurd hds (digits_ne_nil _)
      | cons d ds =>
          have hd : d.isDigit = true := isDigit_of_mem_digits (n := n.whole) (by simp [hds])
          unfold read
          split
          · next heq => rw [(List.cons.inj heq).1] at hd; cases hd
          · rfl

end Number

/-! ## String literals -/

namespace Literal

def pieceOf (c : Char) : Piece :=
  if c.toNat < 0x20 ∧ c ∉ ['\x08', '\x0c', '\n', '\r', '\t'] then .unit c.toNat else .char c

private theorem hexValue_hexDigit : ∀ n, n < 16 → hexValue? (hexDigit n) = some n := by
  decide

theorem unit_hexDigit {n : Nat} (h : n < 0x20) :
    unit? '0' '0' (hexDigit (n / 16)) (hexDigit (n % 16)) = some n := by
  have hzero : hexValue? '0' = some 0 := by decide
  simp only [unit?, hzero, hexValue_hexDigit _ (by omega : n / 16 < 16),
    hexValue_hexDigit _ (by omega : n % 16 < 16), Option.bind_eq_bind, Option.bind_some,
    Option.pure_def, Option.some.injEq]
  omega

theorem split_plain {c : Char} (hquote : c ≠ '"') (hslash : c ≠ '\\') (hlow : ¬ c.toNat < 0x20)
    (rest : List Char) :
    split (c :: rest) = (split rest).map fun (pieces, rest) => (.char c :: pieces, rest) := by
  rw [split.eq_def]
  split
  · next heq => cases heq
  · next heq => exact absurd (List.cons.inj heq).1 hquote
  · next heq => exact absurd (List.cons.inj heq).1 hslash
  · next heq => exact absurd (List.cons.inj heq).1 hslash
  · next heq =>
      obtain ⟨rfl, rfl⟩ := List.cons.inj heq
      rw [if_neg (by simp [hlow, hslash])]
      cases split _ <;> rfl

theorem split_short {e c : Char} (h : escaped? e = some c) (rest : List Char) :
    split ('\\' :: e :: rest) =
      (split rest).map fun (pieces, rest) => (.char c :: pieces, rest) := by
  have hu : e ≠ 'u' := by
    intro heq
    subst heq
    cases h
  rw [split.eq_def]
  split
  · next heq => cases heq
  · next heq => cases (List.cons.inj heq).1
  · next heq => exact absurd (List.cons.inj (List.cons.inj heq).2).1 hu
  · next heq =>
      obtain ⟨rfl, rfl⟩ := List.cons.inj (List.cons.inj heq).2
      rw [h]
      cases split _ <;> rfl
  · next hnone heq => exact absurd (List.cons.inj heq).1.symm (by
      intro hslash
      subst hslash
      exact hnone _ _ rfl (List.cons.inj heq).2.symm)

/-- One written character is split off as one piece. -/
theorem split_escape (c : Char) (rest : List Char) :
    split (escape c ++ rest) =
      (split rest).map fun (pieces, rest) => (pieceOf c :: pieces, rest) := by
  unfold escape
  split_ifs with hquote hslash hback hform hnew hreturn htab hlow
  iterate 7
    · subst c
      exact split_short rfl rest
  · have hpiece : pieceOf c = .unit c.toNat :=
      if_pos ⟨hlow, by simp [hback, hform, hnew, hreturn, htab]⟩
    rw [hpiece]
    simp only [List.cons_append, List.nil_append, split, unit_hexDigit hlow]
    cases split rest <;> rfl
  · have hpiece : pieceOf c = .char c := if_neg fun h => hlow h.1
    rw [hpiece]
    exact split_plain hquote hslash hlow rest

/-- An escaped text is read back piece by piece. -/
theorem split_escaped (cs rest : List Char) :
    split (cs.flatMap escape ++ '"' :: rest) = some (cs.map pieceOf, rest) := by
  induction cs with
  | nil => rfl
  | cons c cs ih =>
      rw [List.flatMap_cons, List.append_assoc, split_escape, ih]
      rfl

theorem join_unit {n : Nat} (h : n < 0xD800) (pieces : List Piece) :
    join (.unit n :: pieces) = (join pieces).map (Char.ofNat n :: ·) := by
  have hhigh : isHigh n = false := by
    simp only [isHigh, Bool.and_eq_false_iff, decide_eq_false_iff_not]
    omega
  have hlow : isLow n = false := by
    simp only [isLow, Bool.and_eq_false_iff, decide_eq_false_iff_not]
    omega
  rcases pieces with _ | ⟨c | m, pieces⟩ <;> simp [join, hhigh, hlow]

theorem join_pieceOf (c : Char) (pieces : List Piece) :
    join (pieceOf c :: pieces) = (join pieces).map (c :: ·) := by
  unfold pieceOf
  split
  · next h => rw [join_unit (by omega), Char.ofNat_toNat]
  · rfl

theorem join_pieces (cs : List Char) : join (cs.map pieceOf) = some cs := by
  induction cs with
  | nil => rfl
  | cons c cs ih => rw [List.map_cons, join_pieceOf, ih]; rfl

/-- The literal of a text reads back, its opening quote being read already. -/
theorem read_render (s : String) (rest : List Char) :
    read (s.toList.flatMap escape ++ '"' :: rest) = some (some s, rest) := by
  simp only [read, split_escaped, Option.map_some, join_pieces, String.ofList_toList]

theorem render_append (s : String) (rest : List Char) :
    render (some s) ++ rest = '"' :: (s.toList.flatMap escape ++ '"' :: rest) := by
  change '"' :: (s.toList.flatMap escape ++ ['"']) ++ rest = _
  rw [List.cons_append, List.append_assoc, List.singleton_append]

end Literal

/-! ## Trees -/

theorem skipSpace_cons {c : Char} (cs : List Char) (h : isSpace c = false) :
    skipSpace (c :: cs) = c :: cs := by
  simp [skipSpace, h]

namespace Value

mutual

/-- Whether all literals of a tree spell a text and all its numbers are
spelled. -/
def isSpelled : Value → Bool
  | .null => true
  | .bool _ => true
  | .number n => n.isSpelled
  | .string s => s.isSome
  | .array items => itemsSpelled items
  | .object members => membersSpelled members

def itemsSpelled : List Value → Bool
  | [] => true
  | v :: vs => v.isSpelled && itemsSpelled vs

def membersSpelled : List (Literal × Value) → Bool
  | [] => true
  | (name, v) :: rest => name.isSome && v.isSpelled && membersSpelled rest

end

/-- The first character of a number literal: what follows the sign is a digit. -/
theorem head_number (n : Number) :
    ∃ c cs, n.render = c :: cs ∧ (c = '-' ∨ c.isDigit = true) := by
  rw [Number.render_eq]
  cases n.negative with
  | true => exact ⟨_, _, rfl, .inl rfl⟩
  | false =>
      cases hds : digits n.whole with
      | nil => exact absurd hds (digits_ne_nil _)
      | cons d ds =>
          have hd : d.isDigit = true := isDigit_of_mem_digits (n := n.whole) (by simp [hds])
          exact ⟨d, _, rfl, .inr hd⟩

private theorem number_start {c : Char} (h : c = '-' ∨ c.isDigit = true) :
    isSpace c = false ∧ c ∉ ['n', 't', 'f', '"', '[', '{', ']'] := by
  rcases h with rfl | hdigit
  · decide
  · constructor
    · cases hspace : isSpace c with
      | false => rfl
      | true =>
          simp only [isSpace, Bool.or_eq_true, beq_iff_eq] at hspace
          rcases hspace with ((rfl | rfl) | rfl) | rfl <;> cases hdigit
    · intro hmem
      simp only [List.mem_cons, List.not_mem_nil, or_false] at hmem
      rcases hmem with rfl | rfl | rfl | rfl | rfl | rfl | rfl <;> cases hdigit

/-- The text of a tree begins with no space and does not close an array. -/
theorem head_render (v : Value) (h : v.isSpelled = true) :
    ∃ c cs, v.render = c :: cs ∧ isSpace c = false ∧ c ≠ ']' := by
  cases v with
  | null => exact ⟨'n', _, rfl, by decide, by decide⟩
  | bool b => cases b <;> exact ⟨_, _, rfl, by decide, by decide⟩
  | number n =>
      obtain ⟨c, cs, hrender, hstart⟩ := head_number n
      obtain ⟨hspace, hmem⟩ := number_start hstart
      exact ⟨c, cs, hrender, hspace, fun heq => hmem (by simp [heq])⟩
  | string s =>
      cases s with
      | none => cases h
      | some s => exact ⟨'"', _, rfl, by decide, by decide⟩
  | array items => exact ⟨'[', _, rfl, by decide, by decide⟩
  | object members => exact ⟨'{', _, rfl, by decide, by decide⟩

/-- A number is read back where nothing follows that would go on it. -/
theorem readValue_number (n : Number) (h : n.isSpelled = true) (fuel : Nat) {rest : List Char}
    (hrest : EndsNumber rest) :
    readValue (fuel + 1) (n.render ++ rest) = some (.number n, rest) := by
  have hread := Number.read_render n h hrest
  obtain ⟨c, cs, hrender, hstart⟩ := head_number n
  obtain ⟨hspace, hmem⟩ := number_start hstart
  rw [hrender, List.cons_append] at hread ⊢
  have hmark : ∀ {mark : Char} {marked : List Char}, c :: (cs ++ rest) = mark :: marked →
      mark ∉ ['n', 't', 'f', '"', '[', '{', ']'] := by
    rintro _ _ ⟨⟩
    exact hmem
  rw [readValue, skipSpace_cons _ hspace]
  split
  case h_7 => rw [hread, Option.map_some]
  all_goals
    rename_i hopen
    exact absurd (by simp) (hmark hopen)

theorem readValue_string (s : String) (fuel : Nat) (rest : List Char) :
    readValue (fuel + 1) (Literal.render (some s) ++ rest) = some (.string (some s), rest) := by
  rw [Literal.render_append, readValue, skipSpace_cons _ (by decide)]
  simp only [Literal.read_render, Option.map_some]

/-- An array that has items is read by its items. -/
theorem readValue_array {items : List Value} {cs rest : List Char} {fuel : Nat}
    (hspace : skipSpace cs = cs) (hopen : ∀ rest, cs ≠ ']' :: rest)
    (hitems : readItems fuel cs = some (items, rest)) :
    readValue (fuel + 1) ('[' :: cs) = some (.array items, rest) := by
  rw [readValue, skipSpace_cons _ (by decide)]
  simp only [hspace, hitems, Option.map_some]

/-- An object that has members is read by its members. -/
theorem readValue_object {members : List (Literal × Value)} {cs rest : List Char} {fuel : Nat}
    (hmembers : readMembers fuel ('"' :: cs) = some (members, rest)) :
    readValue (fuel + 1) ('{' :: '"' :: cs) = some (.object members, rest) := by
  have hquote : isSpace '"' = false := by decide
  rw [readValue, skipSpace_cons _ (by decide)]
  simp only [skipSpace_cons cs hquote]
  split
  · next heq => cases (List.cons.inj heq).1
  · rw [hmembers, Option.map_some]

theorem readItems_last {v : Value} {cs rest : List Char} {fuel : Nat}
    (hv : readValue fuel cs = some (v, ']' :: rest)) :
    readItems (fuel + 1) cs = some ([v], rest) := by
  simp only [readItems, hv, Option.bind_eq_bind, Option.bind_some,
    skipSpace_cons rest (by decide : isSpace ']' = false), Option.pure_def]

theorem readItems_more {v : Value} {vs : List Value} {cs more rest : List Char} {fuel : Nat}
    (hv : readValue fuel cs = some (v, ',' :: more))
    (hvs : readItems fuel more = some (vs, rest)) :
    readItems (fuel + 1) cs = some (v :: vs, rest) := by
  simp only [readItems, hv, Option.bind_eq_bind, Option.bind_some,
    skipSpace_cons more (by decide : isSpace ',' = false), hvs, Option.pure_def]

theorem readMembers_last {name : String} {v : Value} {cs rest : List Char} {fuel : Nat}
    (hv : readValue fuel cs = some (v, '}' :: rest)) :
    readMembers (fuel + 1) (Literal.render (some name) ++ ':' :: cs) =
      some ([(some name, v)], rest) := by
  rw [Literal.render_append]
  simp only [readMembers, skipSpace_cons _ (by decide : isSpace '"' = false),
    Literal.read_render, Option.bind_eq_bind, Option.bind_some,
    skipSpace_cons cs (by decide : isSpace ':' = false), hv,
    skipSpace_cons rest (by decide : isSpace '}' = false), Option.pure_def]

theorem readMembers_more {name : String} {v : Value} {members : List (Literal × Value)}
    {cs more rest : List Char} {fuel : Nat}
    (hv : readValue fuel cs = some (v, ',' :: more))
    (hmembers : readMembers fuel more = some (members, rest)) :
    readMembers (fuel + 1) (Literal.render (some name) ++ ':' :: cs) =
      some ((some name, v) :: members, rest) := by
  rw [Literal.render_append]
  simp only [readMembers, skipSpace_cons _ (by decide : isSpace '"' = false),
    Literal.read_render, Option.bind_eq_bind, Option.bind_some,
    skipSpace_cons cs (by decide : isSpace ':' = false), hv,
    skipSpace_cons more (by decide : isSpace ',' = false), hmembers, Option.pure_def]

/-- All that is written reads back with some fuel, as long as the text is no
longer than it: trees, the items of arrays and the members of objects. -/
structure ReadsBack (fuel : Nat) : Prop where
  value : ∀ v : Value, v.isSpelled = true → v.render.length ≤ fuel → ∀ rest, EndsNumber rest →
    readValue fuel (v.render ++ rest) = some (v, rest)
  items : ∀ item items, itemsSpelled (item :: items) = true →
    (renderItems (item :: items)).length ≤ fuel → ∀ rest,
      readItems fuel (renderItems (item :: items) ++ rest) = some (item :: items, rest)
  members : ∀ name v members, membersSpelled ((name, v) :: members) = true →
    (renderMembers ((name, v) :: members)).length ≤ fuel → ∀ rest,
      readMembers fuel (renderMembers ((name, v) :: members) ++ rest) =
        some ((name, v) :: members, rest)

theorem readsBack_zero : ReadsBack 0 where
  value v h hfuel := by
    obtain ⟨c, cs, hhead, -, -⟩ := head_render v h
    simp [hhead] at hfuel
  items item items _ hfuel := by
    cases items <;> simp [renderItems] at hfuel
  members name v members _ hfuel := by
    cases members <;> simp only [renderMembers, List.length_append, List.length_cons] at hfuel <;>
      omega

theorem ReadsBack.array {fuel : Nat} (ih : ReadsBack fuel) (item : Value) (items : List Value)
    (h : itemsSpelled (item :: items) = true)
    (hfuel : (renderItems (item :: items)).length ≤ fuel) (rest : List Char) :
    readValue (fuel + 1) (render (.array (item :: items)) ++ rest) =
      some (.array (item :: items), rest) := by
  have hitems := ih.items item items h hfuel rest
  obtain ⟨d, ds, hitem, hspace, hclose⟩ := head_render item (Bool.and_eq_true_iff.mp h).1
  obtain ⟨tail, htail⟩ : ∃ tail, renderItems (item :: items) ++ rest = d :: tail := by
    cases items <;> simp [renderItems, hitem]
  have hrender : render (.array (item :: items)) ++ rest = '[' :: d :: tail := by
    rw [← htail]
    rfl
  rw [htail] at hitems
  rw [hrender]
  exact readValue_array (skipSpace_cons tail hspace)
    (fun _ heq => hclose (List.cons.inj heq).1) hitems

theorem ReadsBack.object {fuel : Nat} (ih : ReadsBack fuel) (name : String) (v : Value)
    (members : List (Literal × Value)) (h : membersSpelled ((some name, v) :: members) = true)
    (hfuel : (renderMembers ((some name, v) :: members)).length ≤ fuel) (rest : List Char) :
    readValue (fuel + 1) (render (.object ((some name, v) :: members)) ++ rest) =
      some (.object ((some name, v) :: members), rest) := by
  have hmembers := ih.members (some name) v members h hfuel rest
  obtain ⟨tail, htail⟩ : ∃ tail,
      renderMembers ((some name, v) :: members) ++ rest = '"' :: tail := by
    cases members <;> exact ⟨_, rfl⟩
  have hrender : render (.object ((some name, v) :: members)) ++ rest = '{' :: '"' :: tail := by
    rw [← htail]
    rfl
  rw [htail] at hmembers
  rw [hrender]
  exact readValue_object hmembers

theorem ReadsBack.moreItems {fuel : Nat} (ih : ReadsBack fuel) (item : Value)
    (items : List Value) (h : itemsSpelled (item :: items) = true)
    (hfuel : (renderItems (item :: items)).length ≤ fuel + 1) (rest : List Char) :
    readItems (fuel + 1) (renderItems (item :: items) ++ rest) = some (item :: items, rest) := by
  obtain ⟨hitem, hitems⟩ := Bool.and_eq_true_iff.mp h
  match items with
  | [] =>
      have hlength : item.render.length ≤ fuel := by
        simpa [renderItems] using hfuel
      have hread := ih.value item hitem hlength (']' :: rest) (endsNumber_cons (by decide))
      simp only [renderItems, List.append_assoc, List.singleton_append]
      exact readItems_last hread
  | next :: items =>
      simp only [renderItems, List.length_append, List.length_cons] at hfuel
      have hread := ih.value item hitem (by omega)
        (',' :: (renderItems (next :: items) ++ rest)) (endsNumber_cons (by decide))
      have hmore := ih.items next items hitems (by omega) rest
      have hrender : renderItems (item :: next :: items) ++ rest =
          item.render ++ ',' :: (renderItems (next :: items) ++ rest) := by
        simp [renderItems]
      rw [hrender]
      exact readItems_more hread hmore

theorem ReadsBack.moreMembers {fuel : Nat} (ih : ReadsBack fuel) (name : String) (v : Value)
    (members : List (Literal × Value)) (h : membersSpelled ((some name, v) :: members) = true)
    (hfuel : (renderMembers ((some name, v) :: members)).length ≤ fuel + 1)
    (rest : List Char) :
    readMembers (fuel + 1) (renderMembers ((some name, v) :: members) ++ rest) =
      some ((some name, v) :: members, rest) := by
  obtain ⟨hv, hmembers⟩ : v.isSpelled = true ∧ membersSpelled members = true := by
    simpa only [membersSpelled, Option.isSome_some, Bool.true_and, Bool.and_eq_true] using h
  match members with
  | [] =>
      simp only [renderMembers, List.length_append, List.length_cons] at hfuel
      have hread := ih.value v hv (by omega) ('}' :: rest) (endsNumber_cons (by decide))
      have hrender : renderMembers [(some name, v)] ++ rest =
          Literal.render (some name) ++ ':' :: (v.render ++ '}' :: rest) := by
        simp only [renderMembers, List.append_assoc, List.cons_append, List.nil_append]
      rw [hrender]
      exact readMembers_last hread
  | (next, w) :: members =>
      simp only [renderMembers, List.length_append, List.length_cons] at hfuel
      have hread := ih.value v hv (by omega)
        (',' :: (renderMembers ((next, w) :: members) ++ rest)) (endsNumber_cons (by decide))
      have hmore := ih.members next w members hmembers (by omega) rest
      have hrender : renderMembers ((some name, v) :: (next, w) :: members) ++ rest =
          Literal.render (some name) ++ ':' ::
            (v.render ++ ',' :: (renderMembers ((next, w) :: members) ++ rest)) := by
        simp only [renderMembers, List.append_assoc, List.cons_append]
      rw [hrender]
      exact readMembers_more hread hmore

/-- By induction on the fuel, every constructor of a tree spending one. -/
theorem readsBack (fuel : Nat) : ReadsBack fuel := by
  induction fuel with
  | zero => exact readsBack_zero
  | succ fuel ih =>
      refine ⟨?_, ih.moreItems, ?_⟩
      · intro v h hfuel rest hrest
        match v with
        | .null => rfl
        | .bool true => rfl
        | .bool false => rfl
        | .number n => exact readValue_number n h fuel hrest
        | .string none => cases h
        | .string (some s) => exact readValue_string s fuel rest
        | .array [] => rfl
        | .array (item :: items) =>
            exact ih.array item items h (Nat.le_of_succ_le_succ hfuel) rest
        | .object [] => rfl
        | .object ((none, v) :: members) => simp [isSpelled, membersSpelled] at h
        | .object ((some name, v) :: members) =>
            exact ih.object name v members h (Nat.le_of_succ_le_succ hfuel) rest
      · intro name v members h hfuel rest
        cases name with
        | none => simp [membersSpelled] at h
        | some name => exact ih.moreMembers name v members h hfuel rest

/-- Writing and reading a spelled tree gives the tree. -/
theorem read?_render (v : Value) (h : v.isSpelled = true) : read? v.render = some v := by
  have hread := (readsBack (2 * v.render.length + 2)).value v h (by omega) [] endsNumber_nil
  rw [List.append_nil] at hread
  simp [read?, hread, skipSpace]

theorem ofText?_toText (v : Value) (h : v.isSpelled = true) : ofText? v.toText = some v := by
  rw [ofText?, toText, String.toList_ofList, read?_render v h]

/-! ## Trees that are spelled -/

theorem isSpelled_int (i : Int) : (int i).isSpelled = true :=
  Number.isSpelled_ofInt i

theorem isSpelled_textOrNull (s : Option String) : (textOrNull s).isSpelled = true := by
  cases s <;> rfl

theorem itemsSpelled_iff (items : List Value) :
    itemsSpelled items = true ↔ ∀ v ∈ items, v.isSpelled = true := by
  induction items with
  | nil => simp [itemsSpelled]
  | cons v vs ih => simp [itemsSpelled, ih]

theorem isSpelled_array_map {α : Type} {f : α → Value} {xs : List α}
    (h : ∀ x ∈ xs, (f x).isSpelled = true) : (array (xs.map f)).isSpelled = true := by
  change itemsSpelled (xs.map f) = true
  rw [itemsSpelled_iff]
  intro v hv
  obtain ⟨x, hx, rfl⟩ := List.mem_map.mp hv
  exact h x hx

theorem membersSpelled_iff (members : List (Literal × Value)) :
    membersSpelled members = true ↔ ∀ m ∈ members, m.1.isSome = true ∧ m.2.isSpelled = true := by
  induction members with
  | nil => simp [membersSpelled]
  | cons m members ih => simp [membersSpelled, ih]

/-- The members of a record are those whose values are present. -/
theorem exists_of_mem_record {members : List (String × Option Value)} {m : Literal × Value}
    (h : m ∈ members.filterMap fun (name, value) => value.map fun v => (some name, v)) :
    ∃ name v, (name, some v) ∈ members ∧ m = (some name, v) := by
  obtain ⟨⟨name, value⟩, hmem, hvalue⟩ := List.mem_filterMap.mp h
  obtain ⟨v, rfl, rfl⟩ := Option.map_eq_some_iff.mp hvalue
  exact ⟨name, v, hmem, rfl⟩

/-- A record is spelled where the values that are present are. -/
theorem isSpelled_record {members : List (String × Option Value)}
    (h : ∀ m ∈ members, ∀ v ∈ m.2, v.isSpelled = true) : (record members).isSpelled = true := by
  change membersSpelled _ = true
  rw [membersSpelled_iff]
  intro m hm
  obtain ⟨name, v, hmem, rfl⟩ := exists_of_mem_record hm
  exact ⟨rfl, h _ hmem v rfl⟩

end Value

end DecisionPoint.Json
