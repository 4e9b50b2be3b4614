import DecisionPoint.Proofs.Run
import Mathlib.Data.Finset.Card
import Mathlib.Data.Finset.Dedup
import Mathlib.Data.List.Induction

/-!
The store over a history of changes. Under every key it holds the policy that was put
there last, unless the key was removed since, and it holds nothing else. Its policies stand
in the order in which their keys came in: a policy that replaces another one takes its
place, and a key that comes back after its removal stands at the end.

Both queries keep that order, and no policy answers both, so that a query for the policies
of no tenant and one for those of a tenant find no key twice.
-/

namespace DecisionPoint

open Time (Instant)

/-! ## Histories -/

/-- A change of a store: a policy is put under its key, or a key is removed. -/
inductive StoreChange where
  | put (p : Policy)
  | remove (key : String)

namespace StoreChange

/-- Whether a change neither puts a policy under a key nor removes it. -/
def spares (key : String) : StoreChange → Bool
  | put p => p.key != key
  | remove k => k != key

end StoreChange

/-- A policy was the last to be put under its key, and the key has not been removed
since. -/
def LastPut (cs : List StoreChange) (p : Policy) : Prop :=
  ∃ front back, cs = front ++ .put p :: back ∧ ∀ c ∈ back, c.spares p.key = true

/-- A key has been put and not been removed since. -/
def IsHeld (cs : List StoreChange) (key : String) : Prop :=
  ∃ p, LastPut cs p ∧ p.key = key

/-- The place in a history at which a key came in: the first time that a policy was put
under it since it was last removed. It has not been removed after that. -/
def CameIn (cs : List StoreChange) (key : String) (place : Nat) : Prop :=
  ∃ front p back, cs = front ++ .put p :: back ∧ front.length = place ∧ p.key = key ∧
    ¬ IsHeld front key ∧ .remove key ∉ back

def CameBefore (cs : List StoreChange) (a b : String) : Prop :=
  ∃ m n, CameIn cs a m ∧ CameIn cs b n ∧ m < n

section Histories

variable {cs : List StoreChange} {c : StoreChange} {p q : Policy} {key other : String}
  {place : Nat}

theorem not_lastPut_nil : ¬ LastPut [] p := by
  rintro ⟨front, back, hsplit, -⟩
  simp at hsplit

/-- The last policy of a key was put there by the last change, or the last change has
spared its key. -/
theorem lastPut_snoc :
    LastPut (cs ++ [c]) p ↔ c = .put p ∨ (c.spares p.key = true ∧ LastPut cs p) := by
  constructor
  · rintro ⟨front, back, hsplit, hback⟩
    rcases snoc_eq_iff.mp hsplit with ⟨-, hlast, -⟩ | ⟨rest, hbefore, rfl⟩
    · exact .inl hlast
    · refine .inr ⟨hback c (by simp), front, rest, hbefore, ?_⟩
      intro x hx
      exact hback x (List.mem_append_left _ hx)
  · rintro (rfl | ⟨hspares, front, back, rfl, hback⟩)
    · exact ⟨cs, [], rfl, by simp⟩
    · refine ⟨front, back ++ [c], by simp, ?_⟩
      intro x hx
      rcases List.mem_append.mp hx with hold | hnew
      · exact hback x hold
      · rw [List.mem_singleton.mp hnew]
        exact hspares

theorem lastPut_put :
    LastPut (cs ++ [.put q]) p ↔ p = q ∨ (q.key ≠ p.key ∧ LastPut cs p) := by
  rw [lastPut_snoc, StoreChange.put.injEq, StoreChange.spares, bne_iff_ne, eq_comm]

theorem lastPut_remove :
    LastPut (cs ++ [.remove key]) p ↔ key ≠ p.key ∧ LastPut cs p := by
  rw [lastPut_snoc, StoreChange.spares, bne_iff_ne]
  exact ⟨fun h => h.resolve_left (by simp), .inr⟩

/-- A key has one last policy. -/
theorem LastPut.unique (hp : LastPut cs p) (hq : LastPut cs q) (hkey : p.key = q.key) :
    p = q := by
  induction cs using List.reverseRecOn with
  | nil => exact absurd hp not_lastPut_nil
  | append_singleton cs c ih =>
      cases c with
      | put new =>
          rcases lastPut_put.mp hp with rfl | ⟨hother, hp⟩
          · rcases lastPut_put.mp hq with rfl | ⟨hother, -⟩
            · rfl
            · exact absurd hkey hother
          · rcases lastPut_put.mp hq with rfl | ⟨-, hq⟩
            · exact absurd hkey.symm hother
            · exact ih hp hq
      | remove key => exact ih (lastPut_remove.mp hp).2 (lastPut_remove.mp hq).2

theorem not_isHeld_nil : ¬ IsHeld [] key := by
  rintro ⟨p, hlast, -⟩
  exact not_lastPut_nil hlast

theorem isHeld_put : IsHeld (cs ++ [.put p]) key ↔ p.key = key ∨ IsHeld cs key := by
  constructor
  · rintro ⟨q, hlast, rfl⟩
    rcases lastPut_put.mp hlast with rfl | ⟨-, hold⟩
    · exact .inl rfl
    · exact .inr ⟨q, hold, rfl⟩
  · intro h
    by_cases hkey : p.key = key
    · exact ⟨p, lastPut_put.mpr (.inl rfl), hkey⟩
    · obtain ⟨q, hold, rfl⟩ := h.resolve_left hkey
      exact ⟨q, lastPut_put.mpr (.inr ⟨hkey, hold⟩), rfl⟩

theorem isHeld_remove : IsHeld (cs ++ [.remove other]) key ↔ other ≠ key ∧ IsHeld cs key := by
  constructor
  · rintro ⟨q, hlast, rfl⟩
    obtain ⟨hother, hold⟩ := lastPut_remove.mp hlast
    exact ⟨hother, q, hold, rfl⟩
  · rintro ⟨hother, q, hold, rfl⟩
    exact ⟨q, lastPut_remove.mpr ⟨hother, hold⟩, rfl⟩

theorem not_cameIn_nil : ¬ CameIn [] key place := by
  rintro ⟨front, p, back, hsplit, -⟩
  simp at hsplit

/-- A key came in with the last change, or before it and was not removed by it. -/
theorem cameIn_snoc :
    CameIn (cs ++ [c]) key place ↔
      (place = cs.length ∧ ¬ IsHeld cs key ∧ ∃ p, c = .put p ∧ p.key = key) ∨
        (c ≠ .remove key ∧ CameIn cs key place) := by
  constructor
  · rintro ⟨front, p, back, hsplit, hplace, hkey, hfresh, hkept⟩
    rcases snoc_eq_iff.mp hsplit with ⟨rfl, hlast, -⟩ | ⟨rest, hbefore, rfl⟩
    · exact .inl ⟨hplace.symm, hfresh, p, hlast, hkey⟩
    · rw [List.mem_append, not_or, List.mem_singleton] at hkept
      exact .inr ⟨Ne.symm hkept.2, front, p, rest, hbefore, hplace, hkey, hfresh, hkept.1⟩
  · rintro (⟨rfl, hfresh, p, rfl, hkey⟩ | ⟨hspares, front, p, back, rfl, hplace, hkey, hfresh, hkept⟩)
    · exact ⟨cs, p, [], rfl, rfl, hkey, hfresh, by simp⟩
    · refine ⟨front, p, back ++ [c], by simp, hplace, hkey, hfresh, ?_⟩
      rw [List.mem_append, not_or, List.mem_singleton]
      exact ⟨hkept, Ne.symm hspares⟩

theorem CameIn.lt_length (h : CameIn cs key place) : place < cs.length := by
  obtain ⟨front, p, back, rfl, rfl, -⟩ := h
  rw [List.length_append, List.length_cons]
  omega

/-- The held keys are those that came in. -/
theorem isHeld_iff_cameIn : IsHeld cs key ↔ ∃ place, CameIn cs key place := by
  induction cs using List.reverseRecOn with
  | nil =>
      constructor
      · intro h
        exact absurd h not_isHeld_nil
      · rintro ⟨place, h⟩
        exact absurd h not_cameIn_nil
  | append_singleton cs c ih =>
      constructor
      · intro h
        by_cases hheld : IsHeld cs key
        · obtain ⟨place, hbefore⟩ := ih.mp hheld
          refine ⟨place, cameIn_snoc.mpr (.inr ⟨?_, hbefore⟩)⟩
          rintro rfl
          exact (isHeld_remove.mp h).1 rfl
        · refine ⟨cs.length, cameIn_snoc.mpr (.inl ⟨rfl, hheld, ?_⟩)⟩
          cases c with
          | put p => exact ⟨p, rfl, (isHeld_put.mp h).resolve_right hheld⟩
          | remove other => exact absurd (isHeld_remove.mp h).2 hheld
      · rintro ⟨place, h⟩
        rcases cameIn_snoc.mp h with ⟨-, -, p, rfl, hkey⟩ | ⟨hspares, hbefore⟩
        · exact isHeld_put.mpr (.inl hkey)
        · have hheld := ih.mpr ⟨place, hbefore⟩
          cases c with
          | put p => exact isHeld_put.mpr (.inr hheld)
          | remove other =>
              refine isHeld_remove.mpr ⟨?_, hheld⟩
              rintro rfl
              exact hspares rfl

/-- A key came in at one place. -/
theorem CameIn.unique {place' : Nat} (h : CameIn cs key place) (h' : CameIn cs key place') :
    place = place' := by
  induction cs using List.reverseRecOn with
  | nil => exact absurd h not_cameIn_nil
  | append_singleton cs c ih =>
      rcases cameIn_snoc.mp h with ⟨rfl, hfresh, -⟩ | ⟨-, hbefore⟩
      · rcases cameIn_snoc.mp h' with ⟨rfl, -⟩ | ⟨-, hbefore⟩
        · rfl
        · exact absurd (isHeld_iff_cameIn.mpr ⟨_, hbefore⟩) hfresh
      · rcases cameIn_snoc.mp h' with ⟨-, hfresh, -⟩ | ⟨-, hbefore'⟩
        · exact absurd (isHeld_iff_cameIn.mpr ⟨_, hbefore⟩) hfresh
        · exact ih hbefore hbefore'

theorem CameBefore.ne (h : CameBefore cs key other) : key ≠ other := by
  rintro rfl
  obtain ⟨m, n, hm, hn, hlt⟩ := h
  exact Nat.ne_of_lt hlt (hm.unique hn)

theorem CameBefore.snoc (h : CameBefore cs key other) (hkey : c ≠ .remove key)
    (hother : c ≠ .remove other) : CameBefore (cs ++ [c]) key other := by
  obtain ⟨m, n, hm, hn, hlt⟩ := h
  exact ⟨m, n, cameIn_snoc.mpr (.inr ⟨hkey, hm⟩), cameIn_snoc.mpr (.inr ⟨hother, hn⟩), hlt⟩

end Histories

/-! ## Policies in the order of their keys -/

/-- Whether some policies are those of a history that pass a test, in the order in which
their keys came in. -/
structure Enumerates (cs : List StoreChange) (test : Policy → Prop) (policies : List Policy) :
    Prop where
  mem_iff : ∀ p, p ∈ policies ↔ LastPut cs p ∧ test p
  ordered : (policies.map (·.key)).Pairwise (CameBefore cs)

/-- A policy, or another one that takes its place under its key. -/
def Policy.supersededBy (q p : Policy) : Policy :=
  if q.key = p.key then p else q

theorem Policy.key_supersededBy (q p : Policy) : (q.supersededBy p).key = q.key := by
  rw [supersededBy]
  split
  · exact Eq.symm ‹_›
  · rfl

/-- Policies of different keys are all the first of their key. -/
theorem Policy.distinctBeyond_eq_self {seen : List String} {policies : List Policy}
    (hdistinct : (policies.map (·.key)).Nodup) (hfresh : ∀ p ∈ policies, p.key ∉ seen) :
    distinctBeyond seen policies = policies := by
  induction policies generalizing seen with
  | nil => rfl
  | cons first rest ih =>
      rw [List.map_cons, List.nodup_cons] at hdistinct
      obtain ⟨hfirst, hrest⟩ := hdistinct
      have hnew : ¬ seen.contains first.key = true := by
        rw [List.contains_iff_mem]
        exact hfresh first List.mem_cons_self
      rw [distinctBeyond, if_neg hnew, ih hrest]
      intro p hp hseen
      rcases List.mem_cons.mp hseen with hsame | hold
      · rw [← hsame] at hfirst
        exact hfirst (List.mem_map_of_mem hp)
      · exact hfresh p (List.mem_cons_of_mem _ hp) hold

theorem Policy.distinct_eq_self {policies : List Policy}
    (hdistinct : (policies.map (·.key)).Nodup) : distinct policies = policies :=
  distinctBeyond_eq_self hdistinct fun _ _ h => by cases h

namespace PolicyStore

variable {policies : List Policy} {p q : Policy}

/-- A policy under a new key stands at the end. -/
theorem place_of_notMem (h : p.key ∉ policies.map (·.key)) :
    place p policies = policies ++ [p] := by
  induction policies with
  | nil => rfl
  | cons first rest ih =>
      rw [List.map_cons, List.mem_cons, not_or] at h
      rw [place, if_neg (Ne.symm h.1), ih h.2, List.cons_append]

/-- A policy under a key that is there takes the place of the policy of that key. -/
theorem place_of_mem (hdistinct : (policies.map (·.key)).Nodup)
    (h : p.key ∈ policies.map (·.key)) : place p policies = policies.map (·.supersededBy p) := by
  induction policies with
  | nil => cases h
  | cons first rest ih =>
      rw [List.map_cons, List.nodup_cons] at hdistinct
      rw [List.map_cons, List.mem_cons] at h
      rw [place, List.map_cons, Policy.supersededBy]
      by_cases hsame : first.key = p.key
      · have hothers : rest.map (·.supersededBy p) = rest := by
          refine (List.map_congr_left ?_).trans (List.map_id rest)
          intro other hother
          refine if_neg fun hkey => hdistinct.1 ?_
          rw [hsame, ← hkey]
          exact List.mem_map_of_mem hother
        rw [if_pos hsame, if_pos hsame, hothers]
      · rw [if_neg hsame, if_neg hsame, ih hdistinct.2 (h.resolve_left (Ne.symm hsame))]

/-- Placing a policy replaces the one of its key, and no other. -/
theorem mem_place_iff (hdistinct : (policies.map (·.key)).Nodup) :
    q ∈ place p policies ↔ q = p ∨ (p.key ≠ q.key ∧ q ∈ policies) := by
  by_cases hheld : p.key ∈ policies.map (·.key)
  · rw [place_of_mem hdistinct hheld, List.mem_map]
    constructor
    · rintro ⟨x, hx, rfl⟩
      rw [Policy.supersededBy]
      split
      · exact .inl rfl
      · exact .inr ⟨Ne.symm ‹_›, hx⟩
    · rintro (rfl | ⟨hother, hq⟩)
      · obtain ⟨x, hx, hkey⟩ := List.mem_map.mp hheld
        exact ⟨x, hx, if_pos hkey⟩
      · exact ⟨q, hq, if_neg (Ne.symm hother)⟩
  · rw [place_of_notMem hheld, List.mem_append, List.mem_singleton, or_comm]
    refine or_congr_right ⟨fun hq => ⟨?_, hq⟩, And.right⟩
    rintro hkey
    rw [hkey] at hheld
    exact hheld (List.mem_map_of_mem hq)

end PolicyStore

namespace Enumerates

variable {cs : List StoreChange} {test : Policy → Prop} {policies : List Policy}

theorem nodup (h : Enumerates cs test policies) : (policies.map (·.key)).Nodup :=
  h.ordered.imp CameBefore.ne

theorem mem_keys_iff (h : Enumerates cs (fun _ => True) policies) {key : String} :
    key ∈ policies.map (·.key) ↔ IsHeld cs key := by
  simp only [List.mem_map, h.mem_iff, and_true, IsHeld]

theorem nil : Enumerates [] (fun _ => True) [] where
  mem_iff := by
    intro p
    simp only [List.not_mem_nil, not_lastPut_nil, false_and]
  ordered := .nil

/-- Putting a policy keeps the order: under a key that is held it changes no key, and any
other key comes in after all that are held. -/
theorem put (h : Enumerates cs (fun _ => True) policies) (p : Policy) :
    Enumerates (cs ++ [.put p]) (fun _ => True) (PolicyStore.place p policies) where
  mem_iff := by
    intro q
    rw [PolicyStore.mem_place_iff h.nodup, lastPut_put, h.mem_iff]
    simp only [and_true]
  ordered := by
    have hsince : (policies.map (·.key)).Pairwise (CameBefore (cs ++ [.put p])) :=
      h.ordered.imp fun hbefore => hbefore.snoc (by simp) (by simp)
    by_cases hheld : p.key ∈ policies.map (·.key)
    · have hkeys : (policies.map (·.supersededBy p)).map (·.key) = policies.map (·.key) := by
        rw [List.map_map]
        exact List.map_congr_left fun q _ => q.key_supersededBy p
      rw [PolicyStore.place_of_mem h.nodup hheld, hkeys]
      exact hsince
    · rw [PolicyStore.place_of_notMem hheld, List.map_append, List.pairwise_append]
      refine ⟨hsince, List.pairwise_singleton _ _, ?_⟩
      intro key hkey last hlast
      obtain rfl := List.mem_singleton.mp hlast
      obtain ⟨place, hplace⟩ := isHeld_iff_cameIn.mp (h.mem_keys_iff.mp hkey)
      have hfresh : ¬ IsHeld cs p.key := fun hold => hheld (h.mem_keys_iff.mpr hold)
      exact ⟨place, cs.length, cameIn_snoc.mpr (.inr ⟨by simp, hplace⟩),
        cameIn_snoc.mpr (.inl ⟨rfl, hfresh, p, rfl, rfl⟩), hplace.lt_length⟩

/-- Removing a key leaves all others as they stand. -/
theorem remove (h : Enumerates cs (fun _ => True) policies) (key : String) :
    Enumerates (cs ++ [.remove key]) (fun _ => True) (policies.filter (·.key != key)) where
  mem_iff := by
    intro q
    rw [List.mem_filter, h.mem_iff, lastPut_remove, bne_iff_ne, and_true, and_true, and_comm,
      ne_comm]
  ordered := by
    have hothers : ∀ k ∈ (policies.filter (·.key != key)).map (·.key),
        StoreChange.remove key ≠ .remove k := by
      intro k hk
      obtain ⟨q, hq, rfl⟩ := List.mem_map.mp hk
      have hother : q.key ≠ key := bne_iff_ne.mp (List.mem_filter.mp hq).2
      exact fun hsame => hother (StoreChange.remove.inj hsame).symm
    refine (h.ordered.sublist (List.filter_sublist.map _)).imp_of_mem ?_
    intro a b ha hb hbefore
    exact hbefore.snoc (hothers a ha) (hothers b hb)

/-- A selection keeps the order. -/
theorem filter (h : Enumerates cs (fun _ => True) policies) {select : Policy → Bool}
    (hselect : ∀ p, select p = true ↔ test p) : Enumerates cs test (policies.filter select) where
  mem_iff := by
    intro p
    rw [List.mem_filter, h.mem_iff, and_true, hselect]
  ordered := h.ordered.sublist (List.filter_sublist.map _)

/-- Selections that exclude each other have no key in common. -/
theorem nodup_append {other : Policy → Prop} {others : List Policy}
    (h : Enumerates cs test policies) (h' : Enumerates cs other others)
    (hexclude : ∀ p, test p → ¬ other p) : ((policies ++ others).map (·.key)).Nodup := by
  rw [List.map_append, List.nodup_append]
  refine ⟨h.nodup, h'.nodup, ?_⟩
  intro a ha b hb
  obtain ⟨p, hp, rfl⟩ := List.mem_map.mp ha
  obtain ⟨q, hq, rfl⟩ := List.mem_map.mp hb
  intro hkey
  obtain ⟨hlast, htest⟩ := (h.mem_iff p).mp hp
  obtain ⟨hlast', hother⟩ := (h'.mem_iff q).mp hq
  rw [← hlast.unique hlast' hkey] at hother
  exact hexclude p htest hother

end Enumerates

namespace PolicyStore

/-- A store of some policies has them put one after the other. -/
theorem enumerates_ofList (policies : List Policy) :
    Enumerates (policies.map .put) (fun _ => True) (ofList policies).policies := by
  induction policies using List.reverseRecOn with
  | nil => exact .nil
  | append_singleton policies p ih =>
      rw [List.map_append, ofList, List.foldl_append]
      exact ih.put p

section Reflects

variable {s : PolicyStore} {cs : List StoreChange} {key tenant : String}

/-- The policy of a key is the last that was put under it, unless the key was removed since.
-/
theorem get?_eq_some_iff (h : Enumerates cs (fun _ => True) s.policies) {p : Policy} :
    s.get? key = some p ↔ LastPut cs p ∧ p.key = key := by
  have hfound {q : Policy} (hq : s.get? key = some q) : LastPut cs q ∧ q.key = key := by
    rw [get?] at hq
    have hkey := List.find?_some hq
    exact ⟨((h.mem_iff q).mp (List.mem_of_find?_eq_some hq)).1, beq_iff_eq.mp hkey⟩
  constructor
  · exact hfound
  · rintro ⟨hlast, hkey⟩
    cases hget : s.get? key with
    | none =>
        have hother := List.find?_eq_none.mp hget p ((h.mem_iff p).mpr ⟨hlast, trivial⟩)
        exact absurd (beq_iff_eq.mpr hkey) hother
    | some q =>
        obtain ⟨hlast', hkey'⟩ := hfound hget
        rw [hlast'.unique hlast (hkey'.trans hkey.symm)]

theorem contains_iff (h : Enumerates cs (fun _ => True) s.policies) :
    s.contains key = true ↔ IsHeld cs key := by
  rw [← h.mem_keys_iff, contains, List.any_eq_true, List.mem_map]
  simp only [beq_iff_eq]

theorem size_eq_card (h : Enumerates cs (fun _ => True) s.policies) :
    s.size = (s.policies.map (·.key)).toFinset.card := by
  rw [List.toFinset_card_of_nodup h.nodup, List.length_map, size]

/-- The query for the policies of no tenant finds them in order. -/
theorem findGlobal_enumerates (h : Enumerates cs (fun _ => True) s.policies) :
    Enumerates cs (fun p => p.tenant = none) s.findGlobal.1 := by
  apply h.filter
  intro p
  exact Option.isNone_iff_eq_none

/-- The query for the policies of a tenant finds in order those that may decide
something. -/
theorem findActive_enumerates (h : Enumerates cs (fun _ => True) s.policies) :
    Enumerates cs (fun p => p.tenant = some tenant ∧ p.enabled = true ∧ p.status = .active)
      (s.findActive tenant).1 := by
  apply h.filter
  intro p
  rw [Bool.and_eq_true, beq_iff_eq, Policy.isCandidate, Bool.and_eq_true, beq_iff_eq]

/-- The two queries find no key twice. -/
theorem found_nodup (h : Enumerates cs (fun _ => True) s.policies) :
    ((s.findGlobal.1 ++ (s.findActive tenant).1).map (·.key)).Nodup := by
  refine (findGlobal_enumerates h).nodup_append (findActive_enumerates h) ?_
  rintro p hnone ⟨hsome, -⟩
  rw [hnone] at hsome
  cases hsome

end Reflects

end PolicyStore

/-! ## Runs -/

def Event.change? : Event → Option StoreChange
  | .upsert p => some (.put p)
  | .remove key => some (.remove key)
  | _ => none

namespace Deployment

/-- An event that is no change of the store leaves what is stored. -/
theorem happen_backend (d : Deployment) {e : Event} (h : e.change? = none) :
    (d.happen e).state.backend.uncounted = d.backend.uncounted := by
  rcases d.happen_cases e with hheld | ⟨c, rfl⟩ | ⟨-, -, hsame | ⟨p, rfl⟩ | ⟨key, rfl⟩⟩
  · exact hheld.sameWorld.backend
  · obtain ⟨cache, hstate⟩ := d.happen_cache c
    rw [hstate]
  · rw [hsame]
  · cases h
  · cases h

/-- Whether there is a store behind, which holds what a history of changes has put there,
in order. -/
def Stores (d : Deployment) (cs : List StoreChange) : Prop :=
  ∃ s, d.backend = .memory s ∧ Enumerates cs (fun _ => True) s.policies

/-- A step leaves a store that holds what the history with its change has put there. -/
theorem Stores.step (executor : Executor) {d : Deployment} {cs : List StoreChange}
    (h : d.Stores cs) (e : Event) :
    (d.step executor e).state.Stores (cs ++ e.change?.toList) := by
  obtain ⟨s, hstore, hpolicies⟩ := h
  cases hchange : e.change? with
  | none =>
      rw [Option.toList_none, List.append_nil]
      obtain ⟨s', hstore', hsame⟩ :=
        Backend.stored_of_uncounted (d.happen_backend hchange) hstore
      exact ⟨s', hstore', by rw [hsame]; exact hpolicies⟩
  | some c =>
      cases e with
      | upsert p =>
          cases hchange
          refine ⟨s.upsert p, ?_, hpolicies.put p⟩
          exact congrArg (Backend.change (·.upsert p)) hstore
      | remove key =>
          cases hchange
          refine ⟨s.erase key, ?_, hpolicies.remove key⟩
          exact congrArg (Backend.change (·.erase key)) hstore
      | _ => cases hchange

/-- What is stored after events is what their changes have put there. -/
theorem Stores.after (executor : Executor) {d : Deployment} {cs : List StoreChange}
    (h : d.Stores cs) (es : List Event) :
    (d.after executor es).Stores (cs ++ es.filterMap Event.change?) := by
  induction es generalizing d cs with
  | nil =>
      rw [List.filterMap_nil, List.append_nil]
      exact h
  | cons e es ih =>
      have hrest := ih (h.step executor e)
      have hchanges : e.change?.toList ++ es.filterMap Event.change? =
          (e :: es).filterMap Event.change? := by
        rw [List.filterMap_cons]
        cases e.change? with
        | none => rfl
        | some c => rfl
      rw [List.append_assoc, hchanges] at hrest
      exact hrest

/-- A store over any run, after the policies that it started with. Under each key that is
held it has the policy that was put there last, and nothing else. Its policies stand in the
order in which their keys came in, and a policy under a key that is held takes the place of
the one before it. A removal says whether its key was held. The queries at any instant for
the policies of no tenant and for those of a tenant find no key twice, so that none of what
they find is passed over; in the same order these are exactly the policies without a tenant,
and behind them those of the tenant that may decide something. -/
theorem store_reflects_changes (executor : Executor) (host : Deployment) (initial : List Policy)
    (es : List Event) :
    let d : Deployment := { host with backend := .memory (.ofList initial) }
    let later := d.after executor es
    let cs := initial.map .put ++ es.filterMap Event.change?
    ∃ s, later.backend = .memory s ∧
      (s.policies.map (·.key)).Nodup ∧
      Enumerates cs (fun _ => True) s.policies ∧
      (∀ key p, s.get? key = some p ↔ LastPut cs p ∧ p.key = key) ∧
      (∃ held : Finset String, (∀ key, key ∈ held ↔ IsHeld cs key) ∧ s.size = held.card) ∧
      (∀ p, IsHeld cs p.key → (s.upsert p).policies = s.policies.map (·.supersededBy p)) ∧
      (∀ key, ∃ held, (later.step executor (.remove key)).reply = .flag held ∧
        (held = true ↔ IsHeld cs key)) ∧
      ∀ (tenant : String) (now : Instant),
        let inOrder : Deployment := { later with globalFault := .none, tenantFault := .none }
        let global := s.findGlobal.1
        let own := (s.findGlobal.2.findActive tenant).1
        (inOrder.hold (Engine.queryStore later.config (some tenant) now)).result =
            some (.ok (global ++ own)) ∧
          ((global ++ own).map (·.key)).Nodup ∧
          Policy.distinct (global ++ own) = global ++ own ∧
          Enumerates cs (fun p => p.tenant = none) global ∧
          Enumerates cs (fun p => p.tenant = some tenant ∧ p.enabled = true ∧ p.status = .active)
            own := by
  intro d later cs
  have hstart : d.Stores (initial.map .put) := ⟨_, rfl, PolicyStore.enumerates_ofList initial⟩
  obtain ⟨s, hstore, hpolicies⟩ : later.Stores cs := hstart.after executor es
  refine ⟨s, hstore, hpolicies.nodup, hpolicies, ?_, ?_, ?_, ?_, ?_⟩
  · intro key p
    exact PolicyStore.get?_eq_some_iff hpolicies
  · refine ⟨(s.policies.map (·.key)).toFinset, fun key => ?_, PolicyStore.size_eq_card hpolicies⟩
    rw [List.mem_toFinset, hpolicies.mem_keys_iff]
  · intro p hheld
    exact PolicyStore.place_of_mem hpolicies.nodup (hpolicies.mem_keys_iff.mpr hheld)
  · intro key
    refine ⟨s.contains key, ?_, PolicyStore.contains_iff hpolicies⟩
    change Reply.flag (later.backend.contains key) = _
    rw [hstore]
    rfl
  · intro tenant now inOrder global own
    have hkeys : ((global ++ own).map (·.key)).Nodup := PolicyStore.found_nodup hpolicies
    refine ⟨?_, hkeys, Policy.distinct_eq_self hkeys, PolicyStore.findGlobal_enumerates hpolicies,
      PolicyStore.findActive_enumerates hpolicies⟩
    have hfound : inOrder.backend.found (some tenant) = global ++ own := by
      change later.backend.found (some tenant) = _
      rw [hstore]
      rfl
    have horder : inOrder.storeInOrder := ⟨rfl, rfl⟩
    rw [← hfound]
    exact result_queryStore_inOrder horder later.config (some tenant) now

end Deployment

end DecisionPoint
