/-!
Order by falling priority, in which elements of one priority stand as they came. The
first of that order is the first of those that no other has a higher priority than, so
it can be found without sorting, and an element that another one comes before can be put
in or left out.
-/

namespace DecisionPoint

variable {α : Type} {priority : α → Int32}

/-- Elements stand by falling priority, and those of one priority in the order in which
they came. -/
structure IsRanking (priority : α → Int32) (xs ranked : List α) : Prop where
  perm : ranked.Perm xs
  falling : ranked.Pairwise fun a b => priority b ≤ priority a
  stable : ∀ p, ranked.filter (priority · == p) = xs.filter (priority · == p)

/-- Sorting by falling priority keeps the order of elements of one priority. -/
theorem isRanking_mergeSort (priority : α → Int32) (xs : List α) :
    IsRanking priority xs (xs.mergeSort fun a b => priority b ≤ priority a) := by
  have htrans (a b c : α) (hab : decide (priority b ≤ priority a) = true)
      (hbc : decide (priority c ≤ priority b) = true) :
      decide (priority c ≤ priority a) = true :=
    decide_eq_true (Int32.le_trans (of_decide_eq_true hbc) (of_decide_eq_true hab))
  have htotal (a b : α) :
      (decide (priority b ≤ priority a) || decide (priority a ≤ priority b)) = true := by
    rw [Bool.or_eq_true, decide_eq_true_eq, decide_eq_true_eq]
    exact Int32.le_total _ _
  have hperm := List.mergeSort_perm xs fun a b => priority b ≤ priority a
  refine ⟨hperm, (List.pairwise_mergeSort htrans htotal xs).imp of_decide_eq_true, ?_⟩
  intro p
  have halike : (xs.filter (priority · == p)).Pairwise
      fun a b => decide (priority b ≤ priority a) = true := by
    apply List.pairwise_of_forall_mem_list
    intro a ha b hb
    rw [eq_of_beq (List.mem_filter.mp ha).2, eq_of_beq (List.mem_filter.mp hb).2]
    exact decide_eq_true (Int32.le_refl p)
  have hkept := (List.sublist_mergeSort htrans htotal halike List.filter_sublist).filter
    (priority · == p)
  rw [List.filter_filter] at hkept
  simp only [Bool.and_self] at hkept
  exact (hkept.eq_of_length (hperm.filter _).length_eq.symm).symm

/-! ## The first of the order -/

/-- No element has a higher priority, and none of its priority comes before it. -/
structure Leads (priority : α → Int32) (xs : List α) (x : α) : Prop where
  highest : ∀ y ∈ xs, priority y ≤ priority x
  first : xs.find? (priority · == priority x) = some x

/-- The first of all by rank is the same before and after sorting. -/
theorem IsRanking.leads_iff {xs ranked : List α} (h : IsRanking priority xs ranked) {x : α} :
    Leads priority ranked x ↔ Leads priority xs x := by
  have hfind : ranked.find? (priority · == priority x) = xs.find? (priority · == priority x) := by
    rw [← List.head?_filter, ← List.head?_filter, h.stable]
  constructor
  · intro hx
    exact ⟨fun y hy => hx.highest y (h.perm.mem_iff.mpr hy), hfind ▸ hx.first⟩
  · intro hx
    exact ⟨fun y hy => hx.highest y (h.perm.mem_iff.mp hy), hfind ▸ hx.first⟩

/-- The head of the order is the element that leads. -/
theorem IsRanking.head?_eq_some_iff {xs ranked : List α} (h : IsRanking priority xs ranked)
    {x : α} : ranked.head? = some x ↔ Leads priority xs x := by
  rw [← h.leads_iff]
  cases ranked with
  | nil => exact ⟨fun hnone => (by cases hnone), fun hx => (by cases hx.first)⟩
  | cons y rest =>
      have hbehind (z : α) (hz : z ∈ rest) : priority z ≤ priority y :=
        List.rel_of_pairwise_cons h.falling hz
      constructor
      · rintro ⟨⟩
        refine ⟨?_, List.find?_cons_of_pos (beq_self_eq_true _)⟩
        intro z hz
        rcases List.mem_cons.mp hz with rfl | hrest
        · exact Int32.le_refl _
        · exact hbehind _ hrest
      · intro hx
        have hle := hx.highest y List.mem_cons_self
        have hge : priority x ≤ priority y := by
          rcases List.mem_cons.mp (List.mem_of_find?_eq_some hx.first) with rfl | hrest
          · exact Int32.le_refl _
          · exact hbehind _ hrest
        have hsame : (priority y == priority x) = true :=
          beq_of_eq (Int32.le_antisymm hle hge)
        rw [← hx.first, List.find?_cons, hsame, List.head?_cons]

/-- An element does not matter to which one leads where another has a higher priority, or
comes before it and has no lower one. -/
theorem leads_insert (before after : List α) {x w : α}
    (h : (∃ y ∈ before ++ after, priority x < priority y) ∨
      ∃ y ∈ before, priority x ≤ priority y) :
    Leads priority (before ++ x :: after) w ↔ Leads priority (before ++ after) w := by
  have hmem (y : α) : y ∈ before ++ x :: after ↔ y = x ∨ y ∈ before ++ after :=
    List.perm_middle.mem_iff.trans List.mem_cons
  have hfind (hhighest : ∀ y ∈ before ++ after, priority y ≤ priority w) :
      (before ++ x :: after).find? (priority · == priority w) =
        (before ++ after).find? (priority · == priority w) := by
    rw [List.find?_append, List.find?_append, List.find?_cons]
    cases hx : priority x == priority w with
    | false => rfl
    | true =>
        -- An element as high as the leading one has one of the same priority before it.
        have heq := eq_of_beq hx
        obtain ⟨y, hy, hle⟩ : ∃ y ∈ before, priority x ≤ priority y := by
          rcases h with ⟨y, hy, hlt⟩ | hy
          · rw [heq] at hlt
            exact absurd (hhighest y hy) (Int32.not_le.mpr hlt)
          · exact hy
        have hsame : priority y = priority w :=
          Int32.le_antisymm (hhighest y (List.mem_append_left _ hy)) (heq ▸ hle)
        have hfound : (before.find? (priority · == priority w)).isSome = true :=
          List.find?_isSome.mpr ⟨y, hy, beq_of_eq hsame⟩
        obtain ⟨z, hz⟩ := Option.isSome_iff_exists.mp hfound
        simp only [hz, Option.some_or]
  have hbelow (hhighest : ∀ y ∈ before ++ after, priority y ≤ priority w) :
      priority x ≤ priority w := by
    rcases h with ⟨y, hy, hlt⟩ | ⟨y, hy, hle⟩
    · exact Int32.le_trans (Int32.le_of_lt hlt) (hhighest y hy)
    · exact Int32.le_trans hle (hhighest y (List.mem_append_left _ hy))
  constructor
  · intro hw
    have hhighest (y : α) (hy : y ∈ before ++ after) : priority y ≤ priority w :=
      hw.highest y ((hmem y).mpr (.inr hy))
    exact ⟨hhighest, hfind hhighest ▸ hw.first⟩
  · intro hw
    refine ⟨?_, (hfind hw.highest).trans hw.first⟩
    intro y hy
    rcases (hmem y).mp hy with rfl | hold
    · exact hbelow hw.highest
    · exact hw.highest y hold

end DecisionPoint
