import DecisionPoint.Time.Instant

/-!
Instants under order, difference and advance. Outside leap seconds all three
are those of one number, the nanoseconds since the start of 1970, so that
bounds on spans become linear arithmetic. A deadline outside leap seconds also
bounds the spans that start in one.
-/

namespace DecisionPoint.Time.Instant

/-! ## Order -/

theorem lt_iff {a b : Instant} :
    a < b ↔ a.seconds < b.seconds ∨ (a.seconds = b.seconds ∧ a.nanos < b.nanos) :=
  Iff.rfl

theorem le_iff {a b : Instant} : a ≤ b ↔ ¬ b < a :=
  Iff.rfl

theorem lt_irrefl (a : Instant) : ¬ a < a := by
  rw [lt_iff]
  omega

theorem le_refl (a : Instant) : a ≤ a :=
  lt_irrefl a

theorem lt_trans {a b c : Instant} (hab : a < b) (hbc : b < c) : a < c := by
  rw [lt_iff] at *
  omega

theorem lt_of_lt_of_le {a b c : Instant} (hab : a < b) (hbc : b ≤ c) : a < c := by
  rw [le_iff, lt_iff] at hbc
  rw [lt_iff] at *
  omega

theorem lt_of_le_of_lt {a b c : Instant} (hab : a ≤ b) (hbc : b < c) : a < c := by
  rw [le_iff, lt_iff] at hab
  rw [lt_iff] at *
  omega

theorem le_trans {a b c : Instant} (hab : a ≤ b) (hbc : b ≤ c) : a ≤ c := by
  intro hca
  exact hab (lt_of_le_of_lt hbc hca)

theorem le_of_lt {a b : Instant} (h : a < b) : a ≤ b := by
  intro hba
  exact lt_irrefl a (lt_trans h hba)

theorem le_antisymm {a b : Instant} (hab : a ≤ b) (hba : b ≤ a) : a = b := by
  obtain ⟨seconds, nanos, hrule⟩ := a
  obtain ⟨seconds', nanos', hrule'⟩ := b
  rw [le_iff, lt_iff] at hab hba
  simp only at hab hba
  rw [mk.injEq]
  omega

/-! ## The earliest of some instants -/

theorem earliest?_eq_none {ts : List Instant} (h : earliest? ts = none) : ts = [] := by
  cases ts with
  | nil => rfl
  | cons t ts =>
      simp only [earliest?] at h
      split at h
      · cases h
      · split at h <;> cases h

theorem mem_of_earliest? {ts : List Instant} {t : Instant} (h : earliest? ts = some t) :
    t ∈ ts := by
  induction ts generalizing t with
  | nil => cases h
  | cons u us ih =>
      simp only [earliest?] at h
      split at h
      · cases h
        exact List.mem_cons_self
      · rename_i v hv
        split at h
        · cases h
          exact List.mem_cons_of_mem _ (ih hv)
        · cases h
          exact List.mem_cons_self

/-- The earliest of some instants comes after none of them. -/
theorem earliest?_le {ts : List Instant} {t u : Instant} (h : earliest? ts = some t)
    (hu : u ∈ ts) : t ≤ u := by
  induction ts generalizing t with
  | nil => cases hu
  | cons v vs ih =>
      simp only [earliest?] at h
      split at h
      · rename_i hnone
        cases h
        rw [earliest?_eq_none hnone, List.mem_singleton] at hu
        rw [hu]
        exact le_refl _
      · rename_i w hw
        split at h
        · rename_i hlt
          cases h
          rcases List.mem_cons.mp hu with rfl | htail
          · exact le_of_lt hlt
          · exact ih hw htail
        · rename_i hge
          cases h
          rcases List.mem_cons.mp hu with rfl | htail
          · exact le_refl _
          · exact le_trans hge (ih hw htail)

/-! ## Instants outside leap seconds -/

/-- The nanoseconds since the start of 1970, leap seconds left out. -/
def count (t : Instant) : Int :=
  t.seconds * nanosPerSecond + t.nanos

/-- Whether an instant lies outside all leap seconds. -/
def isPlain (t : Instant) : Bool :=
  t.nanos < nanosPerSecond

theorem isPlain_iff {t : Instant} : t.isPlain = true ↔ t.nanos < 1000000000 := by
  rw [isPlain, decide_eq_true_eq]
  exact Iff.rfl

theorem isLeap_of_isPlain {t : Instant} (h : t.isPlain = true) : t.isLeap = false := by
  rw [isPlain_iff] at h
  rw [isLeap, decide_eq_false_iff_not, nanosPerSecond]
  omega

theorem isLeap_iff {t : Instant} : t.isLeap = true ↔ 1000000000 ≤ t.nanos := by
  rw [isLeap, decide_eq_true_eq, nanosPerSecond]

theorem lt_iff_count {a b : Instant} (ha : a.isPlain = true) (hb : b.isPlain = true) :
    a < b ↔ a.count < b.count := by
  rw [isPlain_iff] at ha hb
  simp only [lt_iff, count, nanosPerSecond]
  omega

theorem le_iff_count {a b : Instant} (ha : a.isPlain = true) (hb : b.isPlain = true) :
    a ≤ b ↔ a.count ≤ b.count := by
  rw [le_iff, lt_iff_count hb ha]
  omega

/-- Outside leap seconds the span between two instants is the difference of
their counts. -/
theorem since_eq {t earlier : Instant} (ht : t.isPlain = true) (he : earlier.isPlain = true) :
    t.since earlier = t.count - earlier.count := by
  simp only [since, isLeap_of_isPlain ht, isLeap_of_isPlain he, Bool.and_false,
    Bool.false_eq_true, if_false, count, day, secondOfDay, secondsPerDay, nanosPerSecond]
  omega

theorem isPlain_advance {t : Instant} (h : t.isPlain = true) (span : Nat) :
    (t.advance span).isPlain = true := by
  rw [isPlain_iff] at h
  have hout : ¬ (nanosPerSecond ≤ t.nanos ∧ t.nanos + span < 2000000000) := by
    simp only [nanosPerSecond]
    omega
  rw [isPlain_iff, advance, dif_neg hout]
  exact Nat.mod_lt _ (by decide)

/-- Outside leap seconds a span moves an instant on by just as much. -/
theorem count_advance {t : Instant} (h : t.isPlain = true) (span : Nat) :
    (t.advance span).count = t.count + span := by
  rw [isPlain_iff] at h
  have hout : ¬ (nanosPerSecond ≤ t.nanos ∧ t.nanos + span < 2000000000) := by
    simp only [nanosPerSecond]
    omega
  rw [advance, dif_neg hout]
  simp only [count, nanosPerSecond]
  omega

/-- An instant is where it was after no time. -/
theorem advance_zero (t : Instant) : t.advance 0 = t := by
  obtain ⟨seconds, nanos, hrule⟩ := t
  by_cases hleap : nanosPerSecond ≤ nanos ∧ nanos + 0 < 2000000000
  · rw [advance, dif_pos hleap]
    rfl
  · have hplain : nanos < 1000000000 := by
      simp only [nanosPerSecond] at hleap
      omega
    rw [advance, dif_neg hleap]
    simp only [mk.injEq, nanosPerSecond]
    omega

/-- The span up to an instant outside leap seconds, where a leap second counts
at most as the second that it repeats. -/
theorem since_le {t earlier : Instant} (ht : t.isPlain = true) :
    t.since earlier ≤ t.count -
      (earlier.seconds * nanosPerSecond + (earlier.nanos % nanosPerSecond : Nat)) := by
  have hrule := earlier.leap_rule
  simp only [since, isLeap_of_isPlain ht, Bool.and_false, Bool.false_eq_true, if_false,
    Bool.and_eq_true, isLeap_iff, count, day, secondOfDay, secondsPerDay,
    nanosPerSecond]
  split <;> omega

/-- Whatever comes before the end of a span that ends by a deadline comes before
the deadline. -/
theorem lt_of_lt_advance {now later deadline : Instant} {span : Nat}
    (hplain : deadline.isPlain = true) (hafter : now < deadline)
    (hspan : (span : Int) ≤ deadline.since now) (h : later < now.advance span) :
    later < deadline := by
  have hmost := Int.le_trans hspan (since_le hplain)
  rw [isPlain_iff] at hplain
  by_cases hstays : nanosPerSecond ≤ now.nanos ∧ now.nanos + span < 2000000000
  · have hleap := hstays.1
    rw [advance, dif_pos hstays] at h
    simp only [lt_iff, nanosPerSecond] at hleap hafter h ⊢
    omega
  · rw [advance, dif_neg hstays] at h
    simp only [lt_iff, count, nanosPerSecond] at hmost h ⊢
    omega

/-! ## Where order and difference part -/

/-- An instant is the second of its day and nanoseconds on top. -/
theorem seconds_eq_day (t : Instant) :
    t.seconds = t.day * 86400 + t.secondOfDay ∧ t.secondOfDay < 86400 := by
  simp only [day, secondOfDay, secondsPerDay]
  omega

/-- Whether an instant in the leap second of the end of a day has come further
into its second than another one into the first second of the next day. -/
def Outruns (earlier t : Instant) : Prop :=
  earlier.secondOfDay + 1 = secondsPerDay ∧ t.seconds = earlier.seconds + 1 ∧
    t.nanos + nanosPerSecond < earlier.nanos

/-- The span up to a later instant is negative where a leap second ends its day
within it, which is then not counted, and nowhere else. -/
theorem since_neg_iff {t earlier : Instant} (h : earlier < t) :
    t.since earlier < 0 ↔ earlier.Outruns t := by
  have hrule := earlier.leap_rule
  have hrule' := t.leap_rule
  obtain ⟨hsecond, hday⟩ := earlier.seconds_eq_day
  obtain ⟨hsecond', hday'⟩ := t.seconds_eq_day
  rw [lt_iff] at h
  simp only [since, Outruns, Bool.and_eq_true, decide_eq_true_eq, isLeap_iff, secondsPerDay,
    nanosPerSecond]
  split
  · omega
  · split <;> omega

end DecisionPoint.Time.Instant
