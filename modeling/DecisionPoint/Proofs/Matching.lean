import DecisionPoint.Evaluation

/-!
What conditions match, said of their ten lists. A list is allowed or denied entries on
one aspect of a request or on the time of day, and the lists of one or two aspects are a
group. Conditions match by what their lists hold, whatever the order, the repetitions and
the groups without entries. So what more is denied is at most refused, what more is
allowed on an aspect that was restricted is at most let pass, and under both modes what
every group admits is matched.
-/

namespace DecisionPoint

open Time (TimeOfDay)

inductive GroupKind where
  | time
  | ip
  | user
  | resource
deriving DecidableEq

/-- What the entries of a list are held against. -/
inductive Aspect where
  | time
  | ip
  | user
  | resourceType
  | resourceId
deriving DecidableEq

/-- The group that the lists on an aspect are part of. -/
def Aspect.group : Aspect → GroupKind
  | .time => .time
  | .ip => .ip
  | .user => .user
  | .resourceType => .resource
  | .resourceId => .resource

theorem Aspect.forall_iff {p : Aspect → Prop} :
    (∀ a, p a) ↔ p .time ∧ p .ip ∧ p .user ∧ p .resourceType ∧ p .resourceId := by
  constructor
  · intro h
    exact ⟨h _, h _, h _, h _, h _⟩
  · rintro ⟨htime, hip, huser, htype, hid⟩ (_ | _ | _ | _ | _) <;> assumption

inductive Entry where
  | range (x : TimeRange)
  | ip (value : String)
  | user (value : String)
  | resourceType (value : String)
  | resourceId (value : String)
deriving DecidableEq

def Entry.covers (e : Entry) (r : Request) (t : TimeOfDay) : Prop :=
  match e with
  | .range x => x.contains t = true
  | .ip value => r.clientIp = some value
  | .user value => r.user = value
  | .resourceType value => r.resourceType = value
  | .resourceId value => r.resourceId = some value

def ConditionGroup.isEmpty : ConditionGroup → Bool
  | .time windows => windows.isEmpty
  | .ip list => list.isEmpty
  | .user list => list.isEmpty
  | .resource lists => lists.isEmpty

theorem TimeWindows.permits_iff {w : TimeWindows} {t : TimeOfDay} :
    w.permits t = true ↔ (∀ x ∈ w.denied, ¬ x.contains t = true) ∧
      (w.allowed = [] ∨ ∃ x ∈ w.allowed, x.contains t = true) := by
  simp [permits]

theorem AccessList.permits_iff {l : AccessList} {value : Option String} :
    l.permits value = true ↔ (∀ v ∈ l.denied, ¬ value = some v) ∧
      (l.allowed = [] ∨ ∃ v ∈ l.allowed, value = some v) := by
  cases value with
  | none => simp [permits]
  | some value =>
      simp only [permits, Option.any_some, List.contains_eq_mem, Bool.and_eq_true,
        Bool.not_eq_true', decide_eq_false_iff_not, Bool.or_eq_true, List.isEmpty_iff,
        decide_eq_true_eq, Option.some.injEq]
      constructor
      · rintro ⟨hdenied, hallowed⟩
        exact ⟨fun v hv heq => hdenied (heq ▸ hv), hallowed.imp_right fun h => ⟨value, h, rfl⟩⟩
      · rintro ⟨hdenied, hallowed⟩
        exact ⟨fun h => hdenied value h rfl, hallowed.imp_right fun ⟨v, hv, heq⟩ => heq ▸ hv⟩

namespace Conditions

variable {c d : Conditions} {r : Request} {t : TimeOfDay}

/-! ## The ten lists -/

def allowedOn (c : Conditions) : Aspect → List Entry
  | .time => (c.time.getD .blank).allowed.map .range
  | .ip => (c.ip.getD .blank).allowed.map .ip
  | .user => (c.user.getD .blank).allowed.map .user
  | .resourceType => (c.resource.getD .blank).types.allowed.map .resourceType
  | .resourceId => (c.resource.getD .blank).ids.allowed.map .resourceId

def deniedOn (c : Conditions) : Aspect → List Entry
  | .time => (c.time.getD .blank).denied.map .range
  | .ip => (c.ip.getD .blank).denied.map .ip
  | .user => (c.user.getD .blank).denied.map .user
  | .resourceType => (c.resource.getD .blank).types.denied.map .resourceType
  | .resourceId => (c.resource.getD .blank).ids.denied.map .resourceId

def Restricts (c : Conditions) (kind : GroupKind) : Prop :=
  ∃ a : Aspect, a.group = kind ∧ (c.allowedOn a ≠ [] ∨ c.deniedOn a ≠ [])

/-- Whether the lists on an aspect let a request pass: none of the denied entries is about
it, and one of the allowed entries is, if there are any. -/
structure Admits (c : Conditions) (r : Request) (t : TimeOfDay) (a : Aspect) : Prop where
  undenied : ∀ e ∈ c.deniedOn a, ¬ e.covers r t
  allowed : c.allowedOn a = [] ∨ ∃ e ∈ c.allowedOn a, e.covers r t

/-- Whether the lists on all aspects of a group let a request pass. -/
def AdmitsGroup (c : Conditions) (r : Request) (t : TimeOfDay) (kind : GroupKind) : Prop :=
  ∀ a : Aspect, a.group = kind → c.Admits r t a

/-- A group of conditions, which is blank where it is absent. -/
def group (c : Conditions) : GroupKind → ConditionGroup
  | .time => .time (c.time.getD .blank)
  | .ip => .ip (c.ip.getD .blank)
  | .user => .user (c.user.getD .blank)
  | .resource => .resource (c.resource.getD .blank)

/-! ## The groups -/

/-- A list admits a request by its entries, of whatever type they are. -/
theorem admits_iff {α : Type} (entry : α → Entry) {a : Aspect} {allowed denied : List α}
    (hallowed : c.allowedOn a = allowed.map entry) (hdenied : c.deniedOn a = denied.map entry) :
    c.Admits r t a ↔ (∀ x ∈ denied, ¬ (entry x).covers r t) ∧
      (allowed = [] ∨ ∃ x ∈ allowed, (entry x).covers r t) := by
  constructor
  · rintro ⟨hnone, hsome⟩
    rw [hdenied, List.forall_mem_map] at hnone
    refine ⟨hnone, ?_⟩
    rw [hallowed, List.map_eq_nil_iff] at hsome
    apply hsome.imp_right
    rintro ⟨e, hmem, hcovers⟩
    obtain ⟨x, hx, rfl⟩ := List.mem_map.mp hmem
    exact ⟨x, hx, hcovers⟩
  · rintro ⟨hnone, hsome⟩
    constructor
    · rw [hdenied, List.forall_mem_map]
      exact hnone
    · rw [hallowed, List.map_eq_nil_iff]
      apply hsome.imp_right
      rintro ⟨x, hx, hcovers⟩
      exact ⟨entry x, List.mem_map_of_mem hx, hcovers⟩

theorem admits_time : c.Admits r t .time ↔ (c.time.getD .blank).permits t = true :=
  (admits_iff .range rfl rfl).trans TimeWindows.permits_iff.symm

theorem admits_list {a : Aspect} {entry : String → Entry} {l : AccessList}
    {value : Option String} (hallowed : c.allowedOn a = l.allowed.map entry)
    (hdenied : c.deniedOn a = l.denied.map entry)
    (hcovers : ∀ v, (entry v).covers r t ↔ value = some v) :
    c.Admits r t a ↔ l.permits value = true := by
  rw [admits_iff entry hallowed hdenied, AccessList.permits_iff]
  simp only [hcovers]

/-- A group passes where the lists on all its aspects let the request pass. -/
theorem passes_group {kind : GroupKind} :
    (c.group kind).passes r t = true ↔ c.AdmitsGroup r t kind := by
  have hip : c.Admits r t .ip ↔ _ := admits_list rfl rfl fun _ => Iff.rfl
  have huser : c.Admits r t .user ↔ _ := admits_list rfl rfl fun _ => Option.some_inj.symm
  have htype : c.Admits r t .resourceType ↔ _ :=
    admits_list rfl rfl fun _ => Option.some_inj.symm
  have hid : c.Admits r t .resourceId ↔ _ := admits_list rfl rfl fun _ => Iff.rfl
  cases kind <;>
    simp [AdmitsGroup, Aspect.forall_iff, Aspect.group, group, ConditionGroup.passes, admits_time,
      hip, huser, htype, hid]

theorem present_eq {α : Type} (isEmpty : α → Bool) (blank : α) {make : α → ConditionGroup}
    (hblank : isEmpty blank = true) (hmake : ∀ x, (make x).isEmpty = isEmpty x)
    (present : Option α) :
    ((present.filter (!isEmpty ·)).map make).toList =
      [make (present.getD blank)].filter (!·.isEmpty) := by
  cases present with
  | none => simp [hmake, hblank]
  | some x => cases hx : isEmpty x <;> simp [hmake, hx, Option.filter]

/-- The groups that count are those that have entries. -/
theorem groups_eq (c : Conditions) :
    c.groups = ([.time, .ip, .user, .resource].map c.group).filter (!·.isEmpty) := by
  rw [groups, present_eq TimeWindows.isEmpty .blank rfl fun _ => rfl,
    present_eq AccessList.isEmpty .blank rfl fun _ => rfl,
    present_eq AccessList.isEmpty .blank rfl fun _ => rfl,
    present_eq ResourceLists.isEmpty .blank rfl fun _ => rfl]
  simp only [← List.filter_append]
  rfl

theorem isEmpty_group_iff {kind : GroupKind} :
    (c.group kind).isEmpty = true ↔ ¬ c.Restricts kind := by
  simp only [Restricts, not_exists, not_and, not_or, Classical.not_not, Aspect.forall_iff]
  cases kind <;>
    simp [Aspect.group, group, ConditionGroup.isEmpty, TimeWindows.isEmpty, AccessList.isEmpty,
      ResourceLists.isEmpty, allowedOn, deniedOn, and_assoc]

/-- The groups that are looked at are those that restrict something. -/
theorem mem_groups {g : ConditionGroup} :
    g ∈ c.groups ↔ ∃ kind, c.Restricts kind ∧ c.group kind = g := by
  have hcounts (kind : GroupKind) : (!(c.group kind).isEmpty) = true ↔ c.Restricts kind := by
    rw [Bool.not_eq_true', ← Bool.not_eq_true, isEmpty_group_iff, Classical.not_not]
  rw [groups_eq, List.mem_filter, List.mem_map]
  constructor
  · rintro ⟨⟨kind, -, rfl⟩, hentries⟩
    exact ⟨kind, (hcounts kind).mp hentries, rfl⟩
  · rintro ⟨kind, hentries, rfl⟩
    exact ⟨⟨kind, by cases kind <;> simp, rfl⟩, (hcounts kind).mpr hentries⟩

/-! ## The modes -/

theorem exists_mem_iff_ne_nil {α : Type} {xs : List α} : (∃ x, x ∈ xs) ↔ xs ≠ [] :=
  ⟨fun ⟨_, h⟩ => List.ne_nil_of_mem h, List.exists_mem_of_ne_nil xs⟩

theorem admits_of_not_restricts {a : Aspect} (h : ¬ c.Restricts a.group) : c.Admits r t a := by
  obtain ⟨hallowed, hdenied⟩ : c.allowedOn a = [] ∧ c.deniedOn a = [] := by
    simp only [Restricts, not_exists, not_and, not_or, Classical.not_not] at h
    exact h a rfl
  exact ⟨by simp [hdenied], .inl hallowed⟩

/-- Where all groups must pass, conditions match by all their lists. -/
theorem matches_all_iff (h : c.mode = .all) :
    c.matches r t = true ↔ ∀ a, c.Admits r t a := by
  have hgroups : c.matches r t = true ↔ ∀ g ∈ c.groups, g.passes r t = true := by
    rw [Conditions.matches, h]
    cases c.groups <;> simp
  rw [hgroups]
  constructor
  · intro hpass a
    by_cases hentries : c.Restricts a.group
    · exact passes_group.mp (hpass _ (mem_groups.mpr ⟨_, hentries, rfl⟩)) a rfl
    · exact admits_of_not_restricts hentries
  · intro hadmits g hg
    obtain ⟨kind, -, rfl⟩ := mem_groups.mp hg
    exact passes_group.mpr fun a _ => hadmits a

/-- Where one group is enough, conditions match by a group that has entries, if there is
one. -/
theorem matches_any_iff (h : c.mode = .any) :
    c.matches r t = true ↔ (∃ kind, c.Restricts kind) →
      ∃ kind, c.Restricts kind ∧ c.AdmitsGroup r t kind := by
  have hgroups : c.matches r t = true ↔
      (c.groups ≠ [] → ∃ g ∈ c.groups, g.passes r t = true) := by
    rw [Conditions.matches, h]
    cases c.groups <;> simp
  have hsome : c.groups ≠ [] ↔ ∃ kind, c.Restricts kind := by
    rw [← exists_mem_iff_ne_nil]
    constructor
    · rintro ⟨g, hg⟩
      obtain ⟨kind, hentries, -⟩ := mem_groups.mp hg
      exact ⟨kind, hentries⟩
    · rintro ⟨kind, hentries⟩
      exact ⟨_, mem_groups.mpr ⟨kind, hentries, rfl⟩⟩
  rw [hgroups, hsome]
  constructor
  · intro hpass hentries
    obtain ⟨g, hg, hpasses⟩ := hpass hentries
    obtain ⟨kind, hkind, rfl⟩ := mem_groups.mp hg
    exact ⟨kind, hkind, passes_group.mp hpasses⟩
  · intro hadmits hentries
    obtain ⟨kind, hkind, hgroup⟩ := hadmits hentries
    exact ⟨_, mem_groups.mpr ⟨kind, hkind, rfl⟩, passes_group.mpr hgroup⟩

/-! ## Edits of the lists -/

/-- Entries were added to denied lists, and to no group without entries unless all groups
must pass. -/
structure DeniesMore (c d : Conditions) : Prop where
  mode : d.mode = c.mode
  allowed : ∀ a e, e ∈ d.allowedOn a ↔ e ∈ c.allowedOn a
  denied : ∀ a, c.deniedOn a ⊆ d.deniedOn a
  restricted : c.mode = .all ∨ ∀ a, d.deniedOn a ⊆ c.deniedOn a ∨ c.Restricts a.group

/-- Entries were added to allowed lists that had some. -/
structure AllowsMore (c d : Conditions) : Prop where
  mode : d.mode = c.mode
  denied : ∀ a e, e ∈ d.deniedOn a ↔ e ∈ c.deniedOn a
  allowed : ∀ a, c.allowedOn a ⊆ d.allowedOn a
  restricted : ∀ a, d.allowedOn a ⊆ c.allowedOn a ∨ c.allowedOn a ≠ []

/-- Each list has the entries that it had, in whatever order and number, and groups
without entries are there or not. -/
structure SameEntries (c d : Conditions) : Prop where
  mode : d.mode = c.mode
  allowed : ∀ a e, e ∈ d.allowedOn a ↔ e ∈ c.allowedOn a
  denied : ∀ a e, e ∈ d.deniedOn a ↔ e ∈ c.deniedOn a

theorem restricts_iff_mem {kind : GroupKind} :
    c.Restricts kind ↔
      ∃ a : Aspect, a.group = kind ∧ ∃ e, e ∈ c.allowedOn a ∨ e ∈ c.deniedOn a := by
  simp only [Restricts, exists_or, exists_mem_iff_ne_nil]

theorem SameEntries.symm (h : c.SameEntries d) : d.SameEntries c :=
  ⟨h.mode.symm, fun a e => (h.allowed a e).symm, fun a e => (h.denied a e).symm⟩

theorem SameEntries.allowsMore (h : c.SameEntries d) : c.AllowsMore d :=
  ⟨h.mode, h.denied, fun a e => (h.allowed a e).mpr, fun a => .inl fun e => (h.allowed a e).mp⟩

/-- Whatever passes with more denied entries passes without them. -/
theorem DeniesMore.admits (h : c.DeniesMore d) {a : Aspect} (hd : d.Admits r t a) :
    c.Admits r t a := by
  refine ⟨fun e he => hd.undenied e (h.denied a he), ?_⟩
  rcases hd.allowed with hnone | ⟨e, he, hcovers⟩
  · left
    rw [List.eq_nil_iff_forall_not_mem] at hnone ⊢
    exact fun e he => hnone e ((h.allowed a e).mpr he)
  · exact .inr ⟨e, (h.allowed a e).mp he, hcovers⟩

/-- Whatever passes also passes with more allowed entries. -/
theorem AllowsMore.admits (h : c.AllowsMore d) {a : Aspect} (hc : c.Admits r t a) :
    d.Admits r t a := by
  refine ⟨fun e he => hc.undenied e ((h.denied a e).mp he), ?_⟩
  rcases hc.allowed with hnone | ⟨e, he, hcovers⟩
  · rcases h.restricted a with hback | hsome
    · left
      rw [hnone] at hback
      exact List.subset_nil.mp hback
    · exact absurd hnone hsome
  · exact .inr ⟨e, h.allowed a he, hcovers⟩

theorem AllowsMore.restricts_iff (h : c.AllowsMore d) {kind : GroupKind} :
    d.Restricts kind ↔ c.Restricts kind := by
  rw [restricts_iff_mem, restricts_iff_mem]
  constructor
  · rintro ⟨a, hkind, e, he | he⟩
    · rcases h.restricted a with hback | hsome
      · exact ⟨a, hkind, e, .inl (hback he)⟩
      · obtain ⟨f, hf⟩ := exists_mem_iff_ne_nil.mpr hsome
        exact ⟨a, hkind, f, .inl hf⟩
    · exact ⟨a, hkind, e, .inr ((h.denied a e).mp he)⟩
  · rintro ⟨a, hkind, e, he | he⟩
    · exact ⟨a, hkind, e, .inl (h.allowed a he)⟩
    · exact ⟨a, hkind, e, .inr ((h.denied a e).mpr he)⟩

theorem DeniesMore.restricts (h : c.DeniesMore d) {kind : GroupKind} (hc : c.Restricts kind) :
    d.Restricts kind := by
  rw [restricts_iff_mem] at hc ⊢
  obtain ⟨a, hkind, e, he⟩ := hc
  exact ⟨a, hkind, e, he.imp (h.allowed a e).mpr fun hdenied => h.denied a hdenied⟩

theorem DeniesMore.of_restricts (h : c.DeniesMore d) (hany : c.mode = .any) {kind : GroupKind}
    (hd : d.Restricts kind) : c.Restricts kind := by
  rcases h.restricted with hall | hedited
  · rw [hany] at hall
    cases hall
  · obtain ⟨a, hkind, e, he | he⟩ := restricts_iff_mem.mp hd
    · exact restricts_iff_mem.mpr ⟨a, hkind, e, .inl ((h.allowed a e).mp he)⟩
    · rcases hedited a with hback | hentries
      · exact restricts_iff_mem.mpr ⟨a, hkind, e, .inr (hback he)⟩
      · exact hkind ▸ hentries

/-- What conditions that deny more match was matched before. -/
theorem DeniesMore.matches (h : c.DeniesMore d) (hd : d.matches r t = true) :
    c.matches r t = true := by
  cases hmode : c.mode with
  | all =>
      rw [matches_all_iff (h.mode.trans hmode)] at hd
      exact (matches_all_iff hmode).mpr fun a => h.admits (hd a)
  | any =>
      rw [matches_any_iff (h.mode.trans hmode)] at hd
      rw [matches_any_iff hmode]
      rintro ⟨kind, hentries⟩
      obtain ⟨other, hother, hgroup⟩ := hd ⟨kind, h.restricts hentries⟩
      exact ⟨other, h.of_restricts hmode hother, fun a ha => h.admits (hgroup a ha)⟩

/-- What conditions match is still matched by those that allow more. -/
theorem AllowsMore.matches (h : c.AllowsMore d) (hc : c.matches r t = true) :
    d.matches r t = true := by
  cases hmode : c.mode with
  | all =>
      rw [matches_all_iff hmode] at hc
      exact (matches_all_iff (h.mode.trans hmode)).mpr fun a => h.admits (hc a)
  | any =>
      rw [matches_any_iff hmode] at hc
      rw [matches_any_iff (h.mode.trans hmode)]
      rintro ⟨kind, hentries⟩
      obtain ⟨other, hother, hgroup⟩ := hc ⟨kind, h.restricts_iff.mp hentries⟩
      exact ⟨other, h.restricts_iff.mpr hother, fun a ha => h.admits (hgroup a ha)⟩

theorem SameEntries.matches_eq (h : c.SameEntries d) : d.matches r t = c.matches r t :=
  Bool.eq_iff_iff.mpr ⟨h.symm.allowsMore.matches, h.allowsMore.matches⟩

/-- What is matched where all groups must pass is matched where one is enough. -/
theorem matches_any_of_all (h : { c with mode := .all }.matches r t = true) :
    { c with mode := .any }.matches r t = true := by
  rw [matches_all_iff rfl] at h
  rw [matches_any_iff rfl]
  rintro ⟨kind, hentries⟩
  exact ⟨kind, hentries, fun a _ => ⟨(h a).undenied, (h a).allowed⟩⟩

/-- Where all groups must pass, one denied entry that is about a request is enough to
refuse it. -/
theorem not_matches_of_denied (h : c.mode = .all) {a : Aspect} {e : Entry}
    (he : e ∈ c.deniedOn a) (hcovers : e.covers r t) : c.matches r t = false := by
  rw [← Bool.not_eq_true, matches_all_iff h]
  intro hadmits
  exact (hadmits a).undenied e he hcovers

/-- Matching goes by the entries of the lists: entries denied in groups that restrict
anyway, or where all groups must pass, let nothing more pass; entries allowed beside
others refuse nothing more; order, repetitions and groups without entries make no
difference; what passes where all groups must also passes where one is enough; and where
all must, what is denied on any aspect does not pass. The last two parts say what matching
is: the lists on every aspect admit the request, or those of some group with entries do, if
there is one. -/
theorem matching_by_entries (c : Conditions) (r : Request) (t : TimeOfDay) :
    (∀ d, c.DeniesMore d → c.matches r t = false → d.matches r t = false) ∧
    (∀ d, c.AllowsMore d → c.matches r t = true → d.matches r t = true) ∧
    (∀ d, c.SameEntries d → d.matches r t = c.matches r t) ∧
    ({ c with mode := .all }.matches r t = true → { c with mode := .any }.matches r t = true) ∧
    (c.mode = .all → ∀ a, ∀ e ∈ c.deniedOn a, e.covers r t → c.matches r t = false) ∧
    (c.mode = .all → (c.matches r t = true ↔ ∀ a, c.Admits r t a)) ∧
    (c.mode = .any → (c.matches r t = true ↔ (∃ kind, c.Restricts kind) →
      ∃ kind, c.Restricts kind ∧ c.AdmitsGroup r t kind)) := by
  refine ⟨?_, ?_, ?_, matches_any_of_all, ?_, matches_all_iff, matches_any_iff⟩
  · intro d hmore hrefused
    rw [← Bool.not_eq_true] at hrefused ⊢
    exact fun hpassed => hrefused (hmore.matches hpassed)
  · intro d hmore hpassed
    exact hmore.matches hpassed
  · intro d hsame
    exact hsame.matches_eq
  · intro hall a e he hcovers
    exact not_matches_of_denied hall he hcovers

/-- Conditions that are met by some addresses or by anyone but some users. -/
def sampleEither (addresses strangers : List String) : Conditions :=
  { blank with mode := .any, ip := some ⟨addresses, []⟩, user := some ⟨[], strangers⟩ }

def sampleCaller (address : String) : Request :=
  ⟨"document", none, "read", "user-1", none, some address, .epoch, none⟩

theorem matching_by_entries_sample :
    let c := sampleEither ["10.0.0.1"] ["user-1"]
    let stricter := sampleEither ["10.0.0.1"] ["user-2", "user-1"]
    let wider := sampleEither ["10.0.0.2", "10.0.0.1"] ["user-1"]
    let same := { sampleEither ["10.0.0.1", "10.0.0.1"] ["user-1"] with time := some .blank }
    let midnight := TimeOfDay.ofInstant .epoch 0
    c.matches (sampleCaller "10.0.0.9") midnight = false ∧
      stricter.matches (sampleCaller "10.0.0.9") midnight = false ∧
      c.matches (sampleCaller "10.0.0.1") midnight = true ∧
      wider.matches (sampleCaller "10.0.0.1") midnight = true ∧
      same.matches (sampleCaller "10.0.0.1") midnight = true := by
  intro c stricter wider same midnight
  have hrefused : c.matches (sampleCaller "10.0.0.9") midnight = false := by decide
  have hpassed : c.matches (sampleCaller "10.0.0.1") midnight = true := by decide
  have hstricter : c.DeniesMore stricter := by
    refine ⟨rfl, fun a e => by cases a <;> exact Iff.rfl, ?_, .inr ?_⟩
    · rintro (_ | _ | _ | _ | _) <;>
        simp [c, stricter, sampleEither, deniedOn, blank, AccessList.blank]
    · rintro (_ | _ | _ | _ | _)
      case user => exact .inr ⟨.user, rfl, .inr (by decide)⟩
      all_goals exact .inl fun _ h => h
  have hwider : c.AllowsMore wider := by
    refine ⟨rfl, fun a e => by cases a <;> exact Iff.rfl, ?_, ?_⟩
    · rintro (_ | _ | _ | _ | _) <;>
        simp [c, wider, sampleEither, allowedOn, blank, AccessList.blank]
    · rintro (_ | _ | _ | _ | _)
      case ip => exact .inr (by decide)
      all_goals exact .inl fun _ h => h
  have hsame : c.SameEntries same := by
    refine ⟨rfl, ?_, fun a e => by cases a <;> exact Iff.rfl⟩
    rintro (_ | _ | _ | _ | _) e <;> simp [c, same, sampleEither, allowedOn, blank]
  obtain ⟨hdeny, -⟩ := matching_by_entries c (sampleCaller "10.0.0.9") midnight
  obtain ⟨-, hallow, heq, -⟩ := matching_by_entries c (sampleCaller "10.0.0.1") midnight
  exact ⟨hrefused, hdeny _ hstricter hrefused, hpassed, hallow _ hwider hpassed,
    (heq _ hsame).trans hpassed⟩

/-- Where one group is enough, the first entry denied in a group makes it one that lets all
others pass. -/
example :
    let midnight := TimeOfDay.ofInstant .epoch 0
    (sampleEither ["10.0.0.1"] []).matches (sampleCaller "10.0.0.9") midnight = false ∧
      (sampleEither ["10.0.0.1"] ["user-2"]).matches (sampleCaller "10.0.0.9") midnight = true := by
  decide

end Conditions

end DecisionPoint
