import DecisionPoint.Cache.Lru

/-!
What the operations of the bounded cache leave in it. Only an insertion brings
in an entry, and what a read finds is the value of an entry that is still
alive, so a property of all entries need only be checked where one is written.
-/

namespace DecisionPoint.LruCache

theorem mem_of_find {c : LruCache} {key : String} {e : CacheEntry} (h : c.entry? key = some e) :
    e ∈ c.entries ∧ e.key = key := by
  constructor
  · exact List.mem_of_find?_eq_some h
  · have hkey := List.find?_some h
    exact beq_iff_eq.mp hkey

theorem mem_entries_erase {c : LruCache} {key : String} {e : CacheEntry} :
    e ∈ (c.erase key).entries ↔ e ∈ c.entries ∧ e.key ≠ key := by
  rw [erase, List.mem_filter, bne_iff_ne]

theorem mem_of_mem_erase {c : LruCache} {key : String} {e : CacheEntry}
    (h : e ∈ (c.erase key).entries) : e ∈ c.entries :=
  (mem_entries_erase.mp h).1

/-- A read adds no entry. -/
theorem mem_of_mem_get {c : LruCache} {now : Nat} {key : String} {e : CacheEntry}
    (h : e ∈ (c.get now key).2.entries) : e ∈ c.entries := by
  unfold get at h
  split at h
  · exact h
  · rename_i found hfound
    split at h
    · rcases List.mem_cons.mp h with rfl | hrest
      · exact (mem_of_find hfound).1
      · exact mem_of_mem_erase hrest
    · exact mem_of_mem_erase h

/-- What a read finds is the value of a live entry of its key. -/
theorem live_of_get {c : LruCache} {now : Nat} {key value : String}
    (h : (c.get now key).1 = some value) :
    ∃ e ∈ c.entries, e.key = key ∧ e.value = value ∧ now < e.expiresAt := by
  unfold get at h
  split at h
  · cases h
  · rename_i found hfound
    split at h
    · rename_i hlive
      obtain ⟨hmem, hkey⟩ := mem_of_find hfound
      exact ⟨found, hmem, hkey, Option.some.inj h, hlive⟩
    · cases h

/-- The entry that a read found is still there. -/
theorem mem_get_of_found {c : LruCache} {now : Nat} {key value : String}
    (h : (c.get now key).1 = some value) :
    ∃ e ∈ (c.get now key).2.entries, e.key = key ∧ e.value = value := by
  unfold get at h ⊢
  split at h
  · cases h
  · rename_i found hfound
    split at h
    · rename_i hlive
      simp only [if_pos hlive]
      exact ⟨found, List.mem_cons_self, (mem_of_find hfound).2, Option.some.inj h⟩
    · cases h

/-- An insertion brings in one entry and no other. -/
theorem mem_insert {c : LruCache} {now ttl : Nat} {key value : String} {e : CacheEntry}
    (h : e ∈ (c.insert now key value ttl).entries) :
    e = ⟨key, value, now + ttl⟩ ∨ e ∈ c.entries := by
  rcases List.mem_cons.mp (List.mem_of_mem_take h) with rfl | hrest
  · exact .inl rfl
  · exact .inr (mem_of_mem_erase hrest)

theorem mem_of_mem_erasePattern {c : LruCache} {pattern : String} {e : CacheEntry} :
    e ∈ (c.erasePattern pattern).2.entries ↔
      e ∈ c.entries ∧ matchesPattern pattern e.key = false := by
  simp [erasePattern, List.partition_eq_filter_filter]

theorem capacity_get (c : LruCache) (now : Nat) (key : String) :
    (c.get now key).2.capacity = c.capacity := by
  unfold get
  split
  · rfl
  · split
    · rfl
    · rfl

theorem capacity_erasePattern (c : LruCache) (pattern : String) :
    (c.erasePattern pattern).2.capacity = c.capacity := by
  simp [erasePattern]

/-! ## Taking out keys -/

/-- A cache without the entries of some keys. The others stay as they are, in
their order. -/
def without (c : LruCache) (doomed : String → Bool) : LruCache :=
  { c with entries := c.entries.filter fun x => !doomed x.key }

/-- The number of entries of some keys, expired ones included. -/
def countOf (c : LruCache) (doomed : String → Bool) : Nat :=
  c.entries.countP fun x => doomed x.key

theorem erase_eq (c : LruCache) (key : String) : c.erase key = c.without (· == key) :=
  rfl

theorem erasePattern_eq (c : LruCache) (pattern : String) :
    c.erasePattern pattern =
      (c.countOf (matchesPattern pattern), c.without (matchesPattern pattern)) := by
  rw [erasePattern, List.partition_eq_filter_filter, countOf, List.countP_eq_length_filter]
  rfl

theorem without_without (c : LruCache) (p q : String → Bool) :
    (c.without p).without q = c.without fun key => p key || q key := by
  simp [without, List.filter_filter, Bool.and_comm]

/-- What is taken out in two steps is counted once. -/
theorem countOf_without (c : LruCache) (p q : String → Bool) :
    c.countOf p + (c.without p).countOf q = c.countOf fun key => p key || q key := by
  simp only [countOf, without]
  induction c.entries with
  | nil => rfl
  | cons x rest ih =>
      cases hp : p x.key with
      | true =>
          simp only [List.countP_cons, List.filter_cons, hp, Bool.not_true, Bool.true_or,
            Bool.false_eq_true, if_false, if_true]
          omega
      | false =>
          simp only [List.countP_cons, List.filter_cons, hp, Bool.not_false, Bool.false_or,
            Bool.false_eq_true, if_false, if_true]
          omega

/-! ## Keys and size

The keys are those of the entries and of nothing else, and the size counts them. What
an operation does to the entries it does to the keys. -/

theorem mem_keys {c : LruCache} {key : String} :
    key ∈ c.keys ↔ ∃ x ∈ c.entries, x.key = key :=
  List.mem_map

theorem size_eq (c : LruCache) : c.size = c.keys.length :=
  (List.length_map _).symm

theorem keys_without (c : LruCache) (doomed : String → Bool) :
    (c.without doomed).keys = c.keys.filter fun key => !doomed key := by
  rw [keys, keys, without, List.filter_map]
  rfl

theorem keys_erase (c : LruCache) (key : String) :
    (c.erase key).keys = c.keys.filter (· != key) :=
  c.keys_without (· == key)

theorem keys_erasePattern (c : LruCache) (pattern : String) :
    (c.erasePattern pattern).2.keys = c.keys.filter fun key => !matchesPattern pattern key := by
  rw [erasePattern_eq]
  exact c.keys_without (matchesPattern pattern)

/-- An insertion puts its key in front and takes as many keys as there is room for. -/
theorem keys_insert (c : LruCache) (now ttl : Nat) (key value : String) :
    (c.insert now key value ttl).keys =
      (key :: c.keys.filter (· != key)).take c.capacity := by
  rw [← keys_erase]
  exact List.map_take

/-- A read that finds something puts its key in front. One that finds nothing takes the
key out, if it is there. -/
theorem keys_get (c : LruCache) (now : Nat) (key : String) :
    (c.get now key).2.keys =
      if (c.get now key).1.isSome then key :: c.keys.filter (· != key)
      else c.keys.filter (· != key) := by
  cases hentry : c.entry? key with
  | none =>
      have habsent : ∀ k ∈ c.keys, (k != key) = true := by
        intro k hk
        obtain ⟨x, hx, rfl⟩ := mem_keys.mp hk
        simpa using List.find?_eq_none.mp hentry x hx
      simp only [get, hentry, Option.isSome_none, Bool.false_eq_true, if_false]
      exact (List.filter_eq_self.mpr habsent).symm
  | some x =>
      rw [← keys_erase]
      by_cases hlive : now < x.expiresAt
      · simp only [get, hentry, hlive, if_true, Option.isSome_some]
        exact congrArg (· :: (c.erase key).keys) (mem_of_find hentry).2
      · simp only [get, hentry, hlive, if_false, Option.isSome_none, Bool.false_eq_true]

theorem mem_keys_of_get {c : LruCache} {now : Nat} {key value : String}
    (h : (c.get now key).1 = some value) : key ∈ c.keys := by
  obtain ⟨x, hx, hkey, -⟩ := live_of_get h
  exact mem_keys.mpr ⟨x, hx, hkey⟩

/-! ## One entry of a key -/

/-- There is no more than one entry of a key. -/
def Sole (c : LruCache) (key : String) : Prop :=
  ∀ x ∈ c.entries, ∀ y ∈ c.entries, x.key = key → y.key = key → x = y

theorem Sole.mono {c later : LruCache} {key : String} (h : c.Sole key)
    (hentries : ∀ x ∈ later.entries, x ∈ c.entries) : later.Sole key := by
  intro x hx y hy hxkey hykey
  exact h x (hentries x hx) y (hentries y hy) hxkey hykey

/-- An insertion leaves no other entry of its key. -/
theorem eq_of_mem_insert {c : LruCache} {now ttl : Nat} {key value : String} {e : CacheEntry}
    (h : e ∈ (c.insert now key value ttl).entries) (hkey : e.key = key) :
    e = ⟨key, value, now + ttl⟩ := by
  rcases List.mem_cons.mp (List.mem_of_mem_take h) with rfl | hrest
  · rfl
  · have hother := (List.mem_filter.mp hrest).2
    rw [hkey, bne_self_eq_false] at hother
    cases hother

theorem sole_insert_self (c : LruCache) (now ttl : Nat) (key value : String) :
    (c.insert now key value ttl).Sole key := by
  intro x hx y hy hxkey hykey
  rw [eq_of_mem_insert hx hxkey, eq_of_mem_insert hy hykey]

/-- A put keeps the entries of a key to one. -/
theorem Sole.insert {c : LruCache} {key : String} (h : c.Sole key) (now ttl : Nat)
    (key' value : String) : (c.insert now key' value ttl).Sole key := by
  by_cases hsame : key' = key
  · subst hsame
    exact c.sole_insert_self now ttl key' value
  · have hold : ∀ x ∈ (c.insert now key' value ttl).entries, x.key = key → x ∈ c.entries := by
      intro x hx hxkey
      rcases mem_insert hx with rfl | hthere
      · exact absurd hxkey hsame
      · exact hthere
    intro x hx y hy hxkey hykey
    exact h x (hold x hx hxkey) y (hold y hy hykey) hxkey hykey

/-- What is inserted is in the cache, where there is room for anything. -/
theorem mem_insert_self {c : LruCache} (hroom : 0 < c.capacity) (now ttl : Nat)
    (key value : String) : ⟨key, value, now + ttl⟩ ∈ (c.insert now key value ttl).entries := by
  obtain ⟨room, hcapacity⟩ := Nat.exists_eq_succ_of_ne_zero (Nat.pos_iff_ne_zero.mp hroom)
  rw [ insert, hcapacity, List.take_succ_cons]
  exact List.mem_cons_self

/-- The only entry of a key is what a read finds while it lives. -/
theorem get_of_sole {c : LruCache} {now : Nat} {x : CacheEntry} (hsole : c.Sole x.key)
    (hx : x ∈ c.entries) (hlive : now < x.expiresAt) : (c.get now x.key).1 = some x.value := by
  cases hentry : c.entry? x.key with
  | none =>
      have hnone := List.find?_eq_none.mp hentry x hx
      exact absurd (beq_self_eq_true x.key) hnone
  | some found =>
      obtain ⟨hmem, hkey⟩ := mem_of_find hentry
      obtain rfl := hsole x hx found hmem rfl hkey
      rw [get, hentry]
      simp only [if_pos hlive]

end DecisionPoint.LruCache
