import DecisionPoint.Proofs.Run
import Mathlib.Algebra.GroupWithZero.Nat
import Mathlib.Data.List.Dedup
import Mathlib.Data.List.Induction
import Mathlib.Data.List.Perm.Subperm
import Mathlib.Data.List.TakeWhile

/-!
The bounded cache over a history of uses. What it holds is what was last put
under a key, unless that was removed or a read came to it after its time; the keys
stand in the order of their last touch; and an entry that is missing although
neither has happened has been displaced, so that as many other keys as the cache
has places were touched since.

Touches are read off the answers of a history: an insertion touches its key, and
so does a read that finds something. So is the list of keys, one move after the
other.
-/

namespace DecisionPoint

/-! ## Histories -/

/-- What happens to a cache: it is used, or time passes. -/
inductive CacheMove where
  | use (e : CacheEvent)
  | pass (span : Nat)

namespace CacheMove

def event : CacheMove → Event
  | use e => .cache e
  | pass span => .wait span

def span : CacheMove → Nat
  | use _ => 0
  | pass span => span

/-- Whether a move neither puts a value under a key nor removes it. -/
def spares (key : String) : CacheMove → Bool
  | use (.set k _ _) => k != key
  | use (.delete k) => k != key
  | use (.deletePattern pattern) => !LruCache.matchesPattern pattern key
  | use .clear => false
  | _ => true

/-- The key that a move with some answer touches. -/
def touched? : CacheMove → Reply → Option String
  | use (.set key _ _), _ => some key
  | use (.get key), .text (some _) => some key
  | _, _ => none

/-- The keys after a move with some answer, the last touched one first, where `room` of
them can be held: a touched key comes to the front, one that was removed or was read in
vain goes, and those there is no more room for are displaced. -/
def keysAfter (room : Nat) (keys : List String) : CacheMove → Reply → List String
  | use (.set key _ _), _ => (key :: keys.filter (· != key)).take room
  | use (.get key), .text (some _) => key :: keys.filter (· != key)
  | use (.get key), _ => keys.filter (· != key)
  | use (.delete key), _ => keys.filter (· != key)
  | use (.deletePattern pattern), _ => keys.filter fun key => !LruCache.matchesPattern pattern key
  | use .clear, _ => []
  | _, _ => keys

end CacheMove

/-- The keys that are held after a history of moves and their answers. -/
def heldKeys (room : Nat) (answered : List (CacheMove × Reply)) : List String :=
  answered.foldl (fun keys x => x.1.keysAfter room keys x.2) []

/-- A value was the last to be put under a key and nothing has removed it since:
it was to live for `ttl`, and `age` is the time that has passed over it. -/
def LastSet (ms : List CacheMove) (key value : String) (ttl age : Nat) : Prop :=
  ∃ front back, ms = front ++ .use (.set key value ttl) :: back ∧
    (∀ m ∈ back, m.spares key = true) ∧ age = (back.map CacheMove.span).sum

/-- A value was the last to be put under a key, nothing has removed it, and its
time is not over. -/
def Stands (ms : List CacheMove) (key value : String) : Prop :=
  ∃ ttl age, LastSet ms key value ttl age ∧ age < ttl

/-- No read has come to the last value of a key after its time. Until one does, a value
whose time is over keeps its place. -/
def Uncollected (ms : List CacheMove) (key : String) : Prop :=
  ∀ before after, ms = before ++ .use (.get key) :: after →
    (∀ m ∈ after, m.spares key = true) →
    ∀ value ttl age, LastSet before key value ttl age → age < ttl

/-- The keys touched after a key was touched last. The touches come with the last
one first. -/
def touchedSince (touches : List String) (key : String) : List String :=
  touches.takeWhile (· != key)

section LastSet

variable {ms : List CacheMove} {key value : String} {ttl age : Nat}

theorem lastSet_set (ms : List CacheMove) (key value : String) (ttl : Nat) :
    LastSet (ms ++ [.use (.set key value ttl)]) key value ttl 0 :=
  ⟨ms, [], rfl, by simp, rfl⟩

theorem LastSet.spared (h : LastSet ms key value ttl age) {m : CacheMove}
    (hm : m.spares key = true) : LastSet (ms ++ [m]) key value ttl (age + m.span) := by
  obtain ⟨front, back, rfl, hback, rfl⟩ := h
  refine ⟨front, back ++ [m], by simp, ?_, by simp⟩
  intro n hn
  rcases List.mem_append.mp hn with hold | hnew
  · exact hback n hold
  · rw [List.mem_singleton.mp hnew]
    exact hm

/-- The last value of a key was put there by the last move, or the last move has
spared it. -/
theorem LastSet.of_snoc {m : CacheMove} (h : LastSet (ms ++ [m]) key value ttl age) :
    (m = .use (.set key value ttl) ∧ age = 0) ∨
      (m.spares key = true ∧ ∃ before, LastSet ms key value ttl before ∧
        age = before + m.span) := by
  obtain ⟨front, back, hsplit, hback, rfl⟩ := h
  rcases snoc_eq_iff.mp hsplit with ⟨-, hm, rfl⟩ | ⟨rest, hbefore, rfl⟩
  · exact .inl ⟨hm, rfl⟩
  · refine .inr ⟨hback m (by simp), (rest.map CacheMove.span).sum, ?_, by simp⟩
    exact ⟨front, rest, hbefore, fun n hn => hback n (List.mem_append_left _ hn), rfl⟩

theorem not_spares_set (key value : String) (ttl : Nat) :
    (CacheMove.use (.set key value ttl)).spares key = false := by
  simp [CacheMove.spares]

/-- A key has one last value. -/
theorem LastSet.unique {value' : String} {ttl' age' : Nat} (h : LastSet ms key value ttl age)
    (h' : LastSet ms key value' ttl' age') : value = value' ∧ ttl = ttl' ∧ age = age' := by
  induction ms using List.reverseRecOn generalizing age age' with
  | nil =>
      obtain ⟨front, back, hsplit, -⟩ := h
      simp at hsplit
  | append_singleton ms m ih =>
      rcases h.of_snoc with ⟨rfl, rfl⟩ | ⟨hspares, before, hlast, rfl⟩
      · rcases h'.of_snoc with ⟨hsame, rfl⟩ | ⟨hspares', -⟩
        · cases hsame
          exact ⟨rfl, rfl, rfl⟩
        · rw [not_spares_set] at hspares'
          cases hspares'
      · rcases h'.of_snoc with ⟨rfl, -⟩ | ⟨-, before', hlast', rfl⟩
        · rw [not_spares_set] at hspares
          cases hspares
        · obtain ⟨rfl, rfl, rfl⟩ := ih hlast hlast'
          exact ⟨rfl, rfl, rfl⟩

/-- A value that is neither replaced nor removed grows older by the time that passes. -/
theorem LastSet.spared_all (h : LastSet ms key value ttl age) {later : List CacheMove}
    (hlater : ∀ m ∈ later, m.spares key = true) :
    LastSet (ms ++ later) key value ttl (age + (later.map CacheMove.span).sum) := by
  obtain ⟨front, back, rfl, hback, rfl⟩ := h
  refine ⟨front, back ++ later, by simp, ?_, by simp⟩
  intro m hm
  exact (List.mem_append.mp hm).elim (hback m) (hlater m)

theorem uncollected_set (ms : List CacheMove) (key value : String) (ttl : Nat) :
    Uncollected (ms ++ [.use (.set key value ttl)]) key := by
  intro before after hsplit hspares
  rcases snoc_eq_iff.mp hsplit with ⟨-, hmove, -⟩ | ⟨rest, -, rfl⟩
  · cases hmove
  · have hspared := hspares _ (List.mem_append_right rest List.mem_cons_self)
    rw [not_spares_set] at hspared
    cases hspared

/-- A value stays uncollected unless it is read after its time. -/
theorem Uncollected.snoc (h : Uncollected ms key) {m : CacheMove}
    (hm : m = .use (.get key) → ∀ value ttl age, LastSet ms key value ttl age → age < ttl) :
    Uncollected (ms ++ [m]) key := by
  intro before after hsplit hspares
  rcases snoc_eq_iff.mp hsplit with ⟨rfl, hmove, -⟩ | ⟨rest, hbefore, rfl⟩
  · exact hm hmove
  · exact h before rest hbefore fun n hn => hspares n (List.mem_append_left _ hn)

theorem Uncollected.of_snoc {m : CacheMove} (h : Uncollected (ms ++ [m]) key)
    (hm : m.spares key = true) : Uncollected ms key := by
  rintro before after rfl hspares
  refine h before (after ++ [m]) (by simp) ?_
  intro n hn
  rcases List.mem_append.mp hn with hold | hnew
  · exact hspares n hold
  · rw [List.mem_singleton.mp hnew]
    exact hm

/-- A value that is within its time has been so at every read. -/
theorem LastSet.uncollected (h : LastSet ms key value ttl age) (hyoung : age < ttl) :
    Uncollected ms key := by
  rintro before after rfl hspares value' ttl' age' hbefore
  have hread : ∀ m ∈ CacheMove.use (.get key) :: after, m.spares key = true := by
    intro m hm
    rcases List.mem_cons.mp hm with rfl | hrest
    · rfl
    · exact hspares m hrest
  obtain ⟨-, rfl, rfl⟩ := h.unique (hbefore.spared_all hread)
  omega

end LastSet

/-! ## Touches -/

section Touches

variable {touches : List String} {key other : String}

theorem ne_of_mem_touchedSince (h : other ∈ touchedSince touches key) : other ≠ key := by
  have hother := List.mem_takeWhile_imp h
  simpa using hother

theorem touchedSince_cons (h : other ≠ key) :
    touchedSince (other :: touches) key = other :: touchedSince touches key := by
  rw [touchedSince, List.takeWhile_cons_of_pos (by simpa using h)]
  rfl

theorem mem_touchedSince_cons {latest : String} (hlatest : latest ≠ key)
    (h : other ∈ touchedSince touches key) : other ∈ touchedSince (latest :: touches) key := by
  rw [touchedSince_cons hlatest]
  exact List.mem_cons_of_mem _ h

/-- Different keys touched since are no more than the distinct keys touched
since. -/
theorem length_le_touchedSince {keys : List String} (hdistinct : keys.Nodup)
    (h : ∀ k ∈ keys, k ∈ touchedSince touches key) :
    keys.length ≤ (touchedSince touches key).dedup.length := by
  have hsub : keys ⊆ (touchedSince touches key).dedup := fun k hk => List.mem_dedup.mpr (h k hk)
  exact (hdistinct.subperm hsub).length_le

theorem touchedSince_cons_length (h : other ≠ key) :
    (touchedSince touches key).dedup.length ≤
      (touchedSince (other :: touches) key).dedup.length := by
  apply length_le_touchedSince (List.nodup_dedup _)
  intro k hk
  exact mem_touchedSince_cons h (List.mem_dedup.mp hk)

end Touches

/-! ## What a cache reflects -/

/-- A cache at a time and the history that led to it. An entry holds what was last
put under its key, lives as long as that was meant to, and has not been read since;
a value that is missing although all this is so has been displaced. -/
structure LruCache.Reflects (c : LruCache) (now : Nat) (ms : List CacheMove)
    (touches : List String) : Prop where
  room : 0 < c.capacity
  bounded : c.size ≤ c.capacity
  touched : ∀ key ∈ c.keys, key ∈ touches
  ranked : c.keys.Pairwise fun a b => a ∈ touchedSince touches b
  sound : ∀ x ∈ c.entries, Uncollected ms x.key ∧
    ∃ ttl age, LastSet ms x.key x.value ttl age ∧ x.expiresAt + age = now + ttl
  complete : ∀ key value ttl age, LastSet ms key value ttl age → Uncollected ms key →
    key ∉ c.keys → c.capacity ≤ (touchedSince touches key).dedup.length

namespace LruCache

section Reflects

variable {c : LruCache} {now : Nat} {ms : List CacheMove} {touches : List String}

theorem Reflects.nodup (h : c.Reflects now ms touches) : c.keys.Nodup :=
  h.ranked.imp ne_of_mem_touchedSince

theorem Reflects.sole (h : c.Reflects now ms touches) (key : String) : c.Sole key := by
  intro x hx y hy hxkey hykey
  exact List.inj_on_of_nodup_map h.nodup hx hy (hxkey.trans hykey.symm)

theorem reflects_empty (capacity now : Nat) : (empty capacity).Reflects now [] [] where
  room := Nat.lt_of_lt_of_le Nat.zero_lt_one (Nat.le_max_right _ _)
  bounded := Nat.zero_le _
  touched := fun _ h => by cases h
  ranked := .nil
  sound := fun _ h => by cases h
  complete := by
    rintro key value ttl age ⟨front, back, hsplit, -⟩
    simp at hsplit

/-- A move that touches nothing takes out the entries of some keys. It has neither
removed nor read what is left, and what is gone it has removed or read after its
time. -/
theorem Reflects.reduced (h : c.Reflects now ms touches) {m : CacheMove}
    (doomed : String → Bool) (hset : ∀ key value ttl, m ≠ .use (.set key value ttl))
    (hspares : ∀ key ∈ c.keys, doomed key = false →
      m.spares key = true ∧ m ≠ .use (.get key))
    (hgone : ∀ key ∈ c.keys, doomed key = true → m.spares key = true →
      m = .use (.get key) ∧ ∀ value ttl age, LastSet ms key value ttl age → ttl ≤ age) :
    (c.without doomed).Reflects (now + m.span) (ms ++ [m]) touches where
  room := h.room
  bounded := Nat.le_trans (List.length_filter_le _ _) h.bounded
  touched := by
    intro key hkey
    obtain ⟨x, hx, rfl⟩ := List.mem_map.mp hkey
    exact h.touched _ (List.mem_map_of_mem (List.mem_filter.mp hx).1)
  ranked := h.ranked.sublist (List.filter_sublist.map _)
  sound := by
    intro x hx
    obtain ⟨hmem, hkept⟩ := List.mem_filter.mp hx
    obtain ⟨huncollected, ttl, age, hlast, hexpires⟩ := h.sound x hmem
    obtain ⟨hspared, hunread⟩ := hspares x.key (List.mem_map_of_mem hmem) (by simpa using hkept)
    exact ⟨huncollected.snoc fun hread => absurd hread hunread, ttl, age + m.span,
      hlast.spared hspared, by omega⟩
  complete := by
    intro key value ttl age hlast huncollected habsent
    rcases hlast.of_snoc with ⟨hmove, -⟩ | ⟨hspared, before, hbefore, rfl⟩
    · exact absurd hmove (hset _ _ _)
    · by_cases hheld : key ∈ c.keys
      · have hdoomed : doomed key = true := by
          by_contra hkept
          obtain ⟨x, hx, rfl⟩ := List.mem_map.mp hheld
          exact habsent (List.mem_map_of_mem (List.mem_filter.mpr ⟨hx, by simpa using hkept⟩))
        obtain ⟨hread, hover⟩ := hgone key hheld hdoomed hspared
        subst hread
        have hlate := hover _ _ _ hbefore
        have hyoung := huncollected ms [] rfl (by simp) _ _ _ hbefore
        omega
      · exact h.complete key value ttl before hbefore (huncollected.of_snoc hspared) hheld

/-- An entry put in front of the others was touched after all of them. -/
theorem Reflects.ranked_promoted (h : c.Reflects now ms touches) (x : CacheEntry) :
    ((x :: (c.erase x.key).entries).map (·.key)).Pairwise fun a b =>
      a ∈ touchedSince (x.key :: touches) b := by
  rw [List.map_cons, List.pairwise_cons]
  constructor
  · intro key hkey
    obtain ⟨y, hy, rfl⟩ := List.mem_map.mp hkey
    rw [touchedSince_cons (mem_entries_erase.mp hy).2.symm]
    exact List.mem_cons_self
  · have hold : ((c.erase x.key).entries.map (·.key)).Pairwise fun a b =>
        a ∈ touchedSince touches b := h.ranked.sublist (List.filter_sublist.map _)
    refine hold.imp_of_mem ?_
    intro a b _ hb hrank
    obtain ⟨y, hy, rfl⟩ := List.mem_map.mp hb
    exact mem_touchedSince_cons (mem_entries_erase.mp hy).2.symm hrank

/-- Where an entry is displaced, as many keys as there is room for were touched since
its own: what is displaced stands behind all that stays. -/
theorem length_le_of_displaced {entries : List CacheEntry} {room : Nat}
    (hranked : (entries.map (·.key)).Pairwise fun a b => a ∈ touchedSince touches b)
    {y : CacheEntry} (hy : y ∈ entries) (hgone : y.key ∉ (entries.take room).map (·.key)) :
    room ≤ (touchedSince touches y.key).dedup.length := by
  rw [← List.take_append_drop room entries] at hy hranked
  have hdropped : y ∈ entries.drop room := by
    rcases List.mem_append.mp hy with hstays | hgoes
    · exact absurd (List.mem_map_of_mem hstays) hgone
    · exact hgoes
  have hfull : (entries.take room).length = room := by
    have hlonger := List.length_pos_of_mem hdropped
    rw [List.length_drop] at hlonger
    rw [List.length_take, Nat.min_eq_left]
    omega
  rw [List.map_append, List.pairwise_append] at hranked
  obtain ⟨hstay, -, hbehind⟩ := hranked
  have hlength := length_le_touchedSince (hstay.imp ne_of_mem_touchedSince) fun k hk =>
    hbehind k hk y.key (List.mem_map_of_mem hdropped)
  rwa [List.length_map, hfull] at hlength

/-- A move that touches a key puts its entry in front of all others and displaces
those that there is no more room for. -/
theorem Reflects.promoted (h : c.Reflects now ms touches) {m : CacheMove} {x : CacheEntry}
    {ttl age : Nat} (hlast : LastSet (ms ++ [m]) x.key x.value ttl age)
    (hfresh : Uncollected (ms ++ [m]) x.key) (hexpires : x.expiresAt + age = now + ttl)
    (hspan : m.span = 0)
    (hspares : ∀ key, key ≠ x.key → m.spares key = true ∧ m ≠ .use (.get key)) :
    Reflects { c with entries := (x :: (c.erase x.key).entries).take c.capacity } now
      (ms ++ [m]) (x.key :: touches) := by
  have hranked := h.ranked_promoted x
  constructor
  case room => exact h.room
  case bounded => exact List.length_take_le _ _
  case touched =>
    intro key hkey
    obtain ⟨y, hy, rfl⟩ := List.mem_map.mp hkey
    rcases List.mem_cons.mp (List.mem_of_mem_take hy) with rfl | hrest
    · exact List.mem_cons_self
    · have hmem := (mem_entries_erase.mp hrest).1
      exact List.mem_cons_of_mem _ (h.touched _ (List.mem_map_of_mem hmem))
  case ranked => exact hranked.sublist ((List.take_sublist _ _).map _)
  case sound =>
    intro y hy
    rcases List.mem_cons.mp (List.mem_of_mem_take hy) with rfl | hrest
    · exact ⟨hfresh, ttl, age, hlast, hexpires⟩
    · obtain ⟨hmem, hother⟩ := mem_entries_erase.mp hrest
      obtain ⟨huncollected, ttl, age, hset, hends⟩ := h.sound y hmem
      obtain ⟨hspared, hunread⟩ := hspares y.key hother
      have hlasts := hset.spared hspared
      rw [hspan] at hlasts
      exact ⟨huncollected.snoc fun hread => absurd hread hunread, ttl, age, hlasts, hends⟩
  case complete =>
    intro key value ttl age hset huncollected habsent
    have hfront : x ∈ (x :: (c.erase x.key).entries).take c.capacity := by
      obtain ⟨room, hroom⟩ := Nat.exists_eq_succ_of_ne_zero (Nat.pos_iff_ne_zero.mp h.room)
      rw [hroom, List.take_succ_cons]
      exact List.mem_cons_self
    have hother : key ≠ x.key := by
      rintro rfl
      exact habsent (List.mem_map_of_mem hfront)
    by_cases hheld : key ∈ c.keys
    · -- The key has just been displaced.
      obtain ⟨y, hy, rfl⟩ := List.mem_map.mp hheld
      have hrest : y ∈ x :: (c.erase x.key).entries :=
        List.mem_cons_of_mem _ (mem_entries_erase.mpr ⟨hy, hother⟩)
      exact length_le_of_displaced hranked hrest habsent
    · rcases hset.of_snoc with ⟨rfl, -⟩ | ⟨-, before, hbefore, rfl⟩
      · have hspared := (hspares key hother).1
        rw [not_spares_set] at hspared
        cases hspared
      · have hcount := h.complete key value ttl before hbefore
          (huncollected.of_snoc (hspares key hother).1) hheld
        exact Nat.le_trans hcount (touchedSince_cons_length hother.symm)

/-- A move that neither touches a key nor changes one leaves all entries. -/
theorem Reflects.idle (h : c.Reflects now ms touches) {m : CacheMove}
    (hspares : ∀ key, m.spares key = true) (hunread : ∀ key ∈ c.keys, m ≠ .use (.get key)) :
    c.Reflects (now + m.span) (ms ++ [m]) touches := by
  have hset : ∀ key value ttl, m ≠ .use (.set key value ttl) := by
    rintro key value ttl rfl
    have hspared := hspares key
    rw [not_spares_set] at hspared
    cases hspared
  have hreduced := h.reduced (m := m) (fun _ => false) hset
    (fun key hkey _ => ⟨hspares key, hunread key hkey⟩) fun _ _ hdoomed => by cases hdoomed
  simpa [without] using hreduced

/-- A put replaces the entry of its key and goes in front of the others, and may displace
the one that was not touched for the longest time. -/
theorem Reflects.set (h : c.Reflects now ms touches) (key value : String) (ttl : Nat) :
    (c.insert now key value ttl).Reflects now (ms ++ [.use (.set key value ttl)])
      (key :: touches) := by
  refine h.promoted (x := ⟨key, value, now + ttl⟩) (lastSet_set ms key value ttl)
    (uncollected_set ms key value ttl) rfl rfl ?_
  intro other hother
  exact ⟨bne_iff_ne.mpr hother.symm, fun hread => by cases hread⟩

/-- A read moves a live entry to the front and takes out one whose time is over. -/
theorem Reflects.get (h : c.Reflects now ms touches) (key : String) :
    (c.get now key).2.Reflects now (ms ++ [.use (.get key)])
      (((CacheMove.use (.get key)).touched? (.text (c.get now key).1)).toList ++ touches) := by
  have hspares : ∀ other, (CacheMove.use (.get key)).spares other = true := fun _ => rfl
  unfold LruCache.get
  cases hentry : c.entry? key with
  | none =>
      refine h.idle hspares ?_
      rintro other hother ⟨⟩
      obtain ⟨x, hx, hkey⟩ := mem_keys.mp hother
      exact absurd (beq_iff_eq.mpr hkey) (List.find?_eq_none.mp hentry x hx)
  | some x =>
      obtain ⟨hmem, rfl⟩ := mem_of_find hentry
      obtain ⟨huncollected, ttl, age, hlast, hexpires⟩ := h.sound x hmem
      have hunread : ∀ other, other ≠ x.key →
          CacheMove.use (.get x.key) ≠ .use (.get other) := by
        rintro other hother ⟨⟩
        exact hother rfl
      by_cases hlive : now < x.expiresAt
      · simp only [hlive, if_true]
        have hroom : (x :: (c.erase x.key).entries).length ≤ c.capacity := by
          have hshorter : (c.erase x.key).entries.length < c.entries.length :=
            List.length_filter_lt_length_iff_exists.mpr ⟨x, hmem, by simp⟩
          exact Nat.le_trans hshorter h.bounded
        have hfresh : Uncollected (ms ++ [.use (.get x.key)]) x.key := by
          refine huncollected.snoc fun _ value ttl' age' hset => ?_
          obtain ⟨-, rfl, rfl⟩ := hlast.unique hset
          omega
        have hpromoted := h.promoted (x := x) (hlast.spared (hspares x.key)) hfresh hexpires rfl
          fun other hother => ⟨hspares other, hunread other hother⟩
        rw [List.take_of_length_le hroom] at hpromoted
        exact hpromoted
      · simp only [hlive, if_false]
        refine h.reduced (m := .use (.get x.key)) (· == x.key) (fun _ _ _ heq => by cases heq)
          (fun other _ hkept => ⟨hspares other, hunread other (beq_eq_false_iff_ne.mp hkept)⟩) ?_
        -- What is gone had expired.
        intro other _ hdoomed _
        obtain rfl := beq_iff_eq.mp hdoomed
        refine ⟨rfl, fun value ttl' age' hset => ?_⟩
        obtain ⟨-, rfl, rfl⟩ := hlast.unique hset
        omega

theorem Reflects.delete (h : c.Reflects now ms touches) (key : String) :
    (c.erase key).Reflects now (ms ++ [.use (.delete key)]) touches := by
  refine h.reduced (m := .use (.delete key)) (· == key) (fun _ _ _ heq => by cases heq) ?_ ?_
  · intro other _ hkept
    exact ⟨bne_iff_ne.mpr (beq_eq_false_iff_ne.mp hkept).symm, fun hread => by cases hread⟩
  · intro other _ hdoomed hspared
    exact absurd (beq_iff_eq.mp hdoomed).symm (bne_iff_ne.mp hspared)

/-- A removal by pattern takes out the entries under the keys that match, in whatever
places. -/
theorem Reflects.deletePattern (h : c.Reflects now ms touches) (pattern : String) :
    (c.erasePattern pattern).2.Reflects now (ms ++ [.use (.deletePattern pattern)]) touches := by
  rw [erasePattern_eq]
  refine h.reduced (m := .use (.deletePattern pattern)) (matchesPattern pattern)
    (fun _ _ _ heq => by cases heq) ?_ ?_
  · intro other _ hkept
    refine ⟨?_, fun hread => by cases hread⟩
    rw [CacheMove.spares, hkept, Bool.not_false]
  · intro other _ hdoomed hspared
    rw [CacheMove.spares, hdoomed, Bool.not_true] at hspared
    cases hspared

theorem Reflects.clear (h : c.Reflects now ms touches) :
    c.clear.Reflects now (ms ++ [.use .clear]) touches := by
  have hreduced := h.reduced (m := .use .clear) (fun _ => true) (fun _ _ _ heq => by cases heq)
    (fun _ _ hkept => by cases hkept) (fun _ _ _ hspared => by cases hspared)
  simp only [without, Bool.not_true, List.filter_false] at hreduced
  exact hreduced

end Reflects

/-- Asking whether a key is live and reading it agree. -/
theorem contains_eq (c : LruCache) (now : Nat) (key : String) :
    c.contains now key = (c.get now key).1.isSome := by
  unfold contains get
  cases c.entry? key with
  | none => rfl
  | some x =>
      by_cases hlive : now < x.expiresAt
      · simp [hlive]
      · simp [hlive]

end LruCache

/-! ## Histories of a deployment -/

namespace Deployment

def history (executor : Executor) (d : Deployment) (ms : List CacheMove) :
    List (CacheMove × Reply) :=
  ms.zip ((d.play executor (ms.map CacheMove.event)).map Step.reply)

/-- The keys touched in a history, the last one first. -/
def touches (executor : Executor) (d : Deployment) (ms : List CacheMove) : List String :=
  ((d.history executor ms).filterMap fun answered => answered.1.touched? answered.2).reverse

def used (executor : Executor) (d : Deployment) (ms : List CacheMove) : Deployment :=
  d.after executor (ms.map CacheMove.event)

theorem length_play (executor : Executor) (d : Deployment) (es : List Event) :
    (d.play executor es).length = es.length := by
  induction es generalizing d with
  | nil => rfl
  | cons e es ih => rw [play, List.length_cons, ih, List.length_cons]

theorem history_snoc (executor : Executor) (d : Deployment) (ms : List CacheMove)
    (m : CacheMove) : d.history executor (ms ++ [m]) =
      d.history executor ms ++ [(m, ((d.used executor ms).step executor m.event).reply)] := by
  have hlength : ms.length =
      ((d.play executor (ms.map CacheMove.event)).map Step.reply).length := by
    rw [List.length_map, length_play, List.length_map]
  rw [history, history, List.map_append, play_append, List.map_append, List.zip_append hlength]
  rfl

theorem used_snoc (executor : Executor) (d : Deployment) (ms : List CacheMove) (m : CacheMove) :
    d.used executor (ms ++ [m]) = ((d.used executor ms).step executor m.event).state := by
  rw [used, List.map_append, after, List.foldl_append]
  rfl

theorem touches_snoc (executor : Executor) (d : Deployment) (ms : List CacheMove)
    (m : CacheMove) : d.touches executor (ms ++ [m]) =
      (m.touched? ((d.used executor ms).step executor m.event).reply).toList ++
        d.touches executor ms := by
  rw [touches, touches, history_snoc, List.filterMap_append, List.reverse_append]
  congr 1
  rw [List.filterMap_cons, List.filterMap_nil]
  cases m.touched? ((d.used executor ms).step executor m.event).reply with
  | none => rfl
  | some key => rfl

/-- A move leaves a cache that reflects the history with the move. -/
theorem step_reflects (executor : Executor) {d : Deployment} {ms : List CacheMove}
    {touches : List String} (h : d.cache.Reflects d.elapsed ms touches) (m : CacheMove) :
    (d.step executor m.event).state.cache.Reflects (d.step executor m.event).state.elapsed
      (ms ++ [m])
      ((m.touched? (d.step executor m.event).reply).toList ++ touches) := by
  cases m with
  | pass span => exact h.idle (m := .pass span) (fun _ => rfl) fun _ _ hread => by cases hread
  | use e =>
      cases e with
      | set key value ttl => exact h.set key value ttl
      | get key => exact h.get key
      | delete key => exact h.delete key
      | deletePattern pattern => exact h.deletePattern pattern
      | clear => exact h.clear
      | contains key =>
          exact h.idle (m := .use (.contains key)) (fun _ => rfl) fun _ _ hread => by cases hread
      | size => exact h.idle (m := .use .size) (fun _ => rfl) fun _ _ hread => by cases hread
      | keys => exact h.idle (m := .use .keys) (fun _ => rfl) fun _ _ hread => by cases hread

/-- Every state that a history leads to reflects it. -/
theorem used_reflects (executor : Executor) {d : Deployment} {capacity : Nat}
    (hempty : d.cache = .empty capacity) (ms : List CacheMove) :
    (d.used executor ms).cache.Reflects (d.used executor ms).elapsed ms
      (d.touches executor ms) := by
  induction ms using List.reverseRecOn with
  | nil =>
      change d.cache.Reflects d.elapsed [] []
      rw [hempty]
      exact LruCache.reflects_empty _ _
  | append_singleton ms m ih =>
      rw [touches_snoc, used_snoc]
      exact step_reflects executor ih m

theorem capacity_step (executor : Executor) (d : Deployment) (m : CacheMove) :
    (d.step executor m.event).state.cache.capacity = d.cache.capacity := by
  cases m with
  | pass span => rfl
  | use e =>
      cases e with
      | get key => exact LruCache.capacity_get _ _ _
      | deletePattern pattern => exact LruCache.capacity_erasePattern _ _
      | _ => rfl

theorem capacity_used (executor : Executor) (d : Deployment) (ms : List CacheMove) :
    (d.used executor ms).cache.capacity = d.cache.capacity := by
  induction ms using List.reverseRecOn with
  | nil => rfl
  | append_singleton ms m ih => rw [used_snoc, capacity_step, ih]

/-- A move does to the list of keys what its answer tells. -/
theorem keys_step (executor : Executor) (d : Deployment) (m : CacheMove) :
    (d.step executor m.event).state.cache.keys =
      m.keysAfter d.cache.capacity d.cache.keys (d.step executor m.event).reply := by
  cases m with
  | pass span => rfl
  | use e =>
      cases e with
      | set key value ttl => exact LruCache.keys_insert _ _ _ _ _
      | get key =>
          change (d.cache.get d.elapsed key).2.keys = CacheMove.keysAfter _ _ _
            (.text (d.cache.get d.elapsed key).1)
          rw [LruCache.keys_get]
          cases (d.cache.get d.elapsed key).1 with
          | none => rfl
          | some value => rfl
      | delete key => exact LruCache.keys_erase _ _
      | deletePattern pattern => exact LruCache.keys_erasePattern _ _
      | _ => rfl

/-- The keys of a cache are those that its history of touches leaves held. -/
theorem keys_used (executor : Executor) {d : Deployment} {capacity : Nat}
    (hempty : d.cache = .empty capacity) (ms : List CacheMove) :
    (d.used executor ms).cache.keys = heldKeys (max capacity 1) (d.history executor ms) := by
  induction ms using List.reverseRecOn with
  | nil =>
      change d.cache.keys = []
      rw [hempty]
      rfl
  | append_singleton ms m ih =>
      have hcapacity : (d.used executor ms).cache.capacity = max capacity 1 := by
        rw [capacity_used, hempty]
        rfl
      rw [used_snoc, keys_step, hcapacity, ih, history_snoc, heldKeys, heldKeys,
        List.foldl_append]
      rfl

/-- A cache that starts empty, over any history of uses and time. The keys that it
lists are the held ones, as the history tells move by move: they are distinct, no more
than there are places and as many as are counted, and stand in the order of their last
touch. Each has a last value that nothing has removed and no read has found too old,
and every key with such a value is listed while fewer other keys were touched since
than there are places. What a read finds was the last value put under its key, nothing
has removed it, and its time is not over. Such a value is found while fewer other keys
were touched since than there are places; a read that found only an expired entry
counts as no touch. Asking whether a key is there says what a read would, and changes
nothing. -/
theorem cache_reflects_history (executor : Executor) (host : Deployment) (capacity : Nat)
    (ms : List CacheMove) :
    let d : Deployment := { host with cache := .empty capacity }
    let later := d.used executor ms
    let touches := d.touches executor ms
    (later.cacheEvent .keys = (.keys later.cache.keys, later) ∧
      later.cacheEvent .size = (.size later.cache.keys.length, later) ∧
      later.cache.keys = heldKeys (max capacity 1) (d.history executor ms)) ∧
      (later.cache.keys.Nodup ∧ later.cache.size ≤ max capacity 1) ∧
      (∀ key ∈ later.cache.keys, key ∈ touches) ∧
      later.cache.keys.Pairwise (fun a b => a ∈ touchedSince touches b) ∧
      (∀ key ∈ later.cache.keys,
        Uncollected ms key ∧ ∃ value ttl age, LastSet ms key value ttl age) ∧
      (∀ key value ttl age, LastSet ms key value ttl age → Uncollected ms key →
        (touchedSince touches key).dedup.length < max capacity 1 → key ∈ later.cache.keys) ∧
      (∀ key value, (later.cacheEvent (.get key)).1 = .text (some value) →
        key ∈ later.cache.keys ∧ Stands ms key value) ∧
      (∀ key value, Stands ms key value →
        (touchedSince touches key).dedup.length < max capacity 1 →
        (later.cacheEvent (.get key)).1 = .text (some value)) ∧
      ∀ key, later.cacheEvent (.contains key) =
        (.flag (later.cache.get later.elapsed key).1.isSome, later) := by
  intro d later touches
  have hreflects : later.cache.Reflects later.elapsed ms touches := used_reflects executor rfl ms
  have hcapacity : later.cache.capacity = max capacity 1 := capacity_used executor d ms
  have hheld : ∀ key value ttl age, LastSet ms key value ttl age → Uncollected ms key →
      (touchedSince touches key).dedup.length < max capacity 1 → key ∈ later.cache.keys := by
    intro key value ttl age hlast huncollected hfew
    by_contra habsent
    have hmany := hreflects.complete key value ttl age hlast huncollected habsent
    omega
  refine ⟨⟨rfl, ?_, keys_used executor rfl ms⟩, ⟨hreflects.nodup, ?_⟩, hreflects.touched,
    hreflects.ranked, ?_, hheld, ?_, ?_, ?_⟩
  · rw [← LruCache.size_eq]
    rfl
  · rw [← hcapacity]
    exact hreflects.bounded
  · intro key hkey
    obtain ⟨x, hx, rfl⟩ := LruCache.mem_keys.mp hkey
    obtain ⟨huncollected, ttl, age, hlast, -⟩ := hreflects.sound x hx
    exact ⟨huncollected, x.value, ttl, age, hlast⟩
  · intro key value hfound
    have hget : (later.cache.get later.elapsed key).1 = some value := Reply.text.inj hfound
    refine ⟨LruCache.mem_keys_of_get hget, ?_⟩
    obtain ⟨x, hx, rfl, rfl, hlive⟩ := LruCache.live_of_get hget
    obtain ⟨-, ttl, age, hlast, hexpires⟩ := hreflects.sound x hx
    exact ⟨ttl, age, hlast, by omega⟩
  · rintro key value ⟨ttl, age, hlast, hyoung⟩ hfew
    obtain ⟨x, hx, rfl⟩ := LruCache.mem_keys.mp
      (hheld key value ttl age hlast (hlast.uncollected hyoung) hfew)
    obtain ⟨-, ttl', age', hlast', hexpires⟩ := hreflects.sound x hx
    obtain ⟨rfl, rfl, rfl⟩ := hlast.unique hlast'
    have hlive : later.elapsed < x.expiresAt := by omega
    exact congrArg Reply.text (LruCache.get_of_sole (hreflects.sole x.key) hx hlive)
  · intro key
    rw [← LruCache.contains_eq]
    rfl

end Deployment

end DecisionPoint
