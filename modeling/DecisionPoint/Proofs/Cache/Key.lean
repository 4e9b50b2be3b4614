import DecisionPoint.Cache.Key
import DecisionPoint.Cache.Lru

/-!
The keys of the cache tell apart what is kept under them. No component of the
key of a fit request holds the separator, so the key gives its components
back; the tenant of a candidate list is the rest of its key; and the two kinds
of keys begin differently.
-/

namespace DecisionPoint

namespace Request

theorem noSeparator_of_defect?_eq_none {r : Request} (h : r.defect? = none) :
    ∀ f ∈ r.keyedFields, ':' ∉ f.2.toList := by
  unfold defect? at h
  split at h
  · cases h
  · rw [Option.map_eq_none_iff, List.find?_eq_none] at h
    intro f hf hcolon
    exact h f hf (List.contains_iff_mem.mpr hcolon)

end Request

namespace Key

/-- A separator that occurs in neither front part tells where the parts end. -/
theorem append_separator_inj {as bs xs ys : List Char} (has : ':' ∉ as) (hbs : ':' ∉ bs)
    (h : as ++ ':' :: xs = bs ++ ':' :: ys) : as = bs ∧ xs = ys := by
  induction as generalizing bs with
  | nil =>
      cases bs with
      | nil =>
          cases h
          exact ⟨rfl, rfl⟩
      | cons b bs =>
          cases h
          exact absurd List.mem_cons_self hbs
  | cons a as ih =>
      cases bs with
      | nil =>
          cases h
          exact absurd List.mem_cons_self has
      | cons b bs =>
          obtain ⟨rfl, htail⟩ := List.cons.inj h
          have has' : ':' ∉ as := fun hmem => has (List.mem_cons_of_mem _ hmem)
          have hbs' : ':' ∉ bs := fun hmem => hbs (List.mem_cons_of_mem _ hmem)
          obtain ⟨rfl, rfl⟩ := ih has' hbs' htail
          exact ⟨rfl, rfl⟩

/-- The last part of a decision key: the user, and the tenant where there is
one. -/
theorem append_tenant_inj {as bs : List Char} {s t : Option String} (has : ':' ∉ as)
    (hbs : ':' ∉ bs)
    (h : as ++ ((s.map (":" ++ ·)).getD "").toList = bs ++ ((t.map (":" ++ ·)).getD "").toList) :
    as = bs ∧ s = t := by
  cases s with
  | none =>
      cases t with
      | none => simpa using h
      | some t =>
          simp only [Option.map_none, Option.getD_none, Option.map_some, Option.getD_some,
            String.toList_append] at h
          have hcolon : ':' ∈ as := by
            have : as = bs ++ (":".toList ++ t.toList) := by simpa using h
            rw [this]
            simp
          exact absurd hcolon has
  | some s =>
      cases t with
      | none =>
          simp only [Option.map_none, Option.getD_none, Option.map_some, Option.getD_some,
            String.toList_append] at h
          have hcolon : ':' ∈ bs := by
            have : as ++ (":".toList ++ s.toList) = bs := by simpa using h
            rw [← this]
            simp
          exact absurd hcolon hbs
      | some t =>
          have hlists : as ++ ':' :: s.toList = bs ++ ':' :: t.toList := by
            simpa using h
          obtain ⟨hfront, hback⟩ := append_separator_inj has hbs hlists
          exact ⟨hfront, congrArg some (String.toList_injective hback)⟩

/-- The decision key of a fit request gives back the four components that it
is made of. -/
theorem decision_components {r s : Request} (hr : r.defect? = none) (hs : s.defect? = none)
    (h : decision r = decision s) :
    r.resourceType = s.resourceType ∧ r.action = s.action ∧ r.user = s.user ∧
      r.tenant = s.tenant := by
  have hrField := Request.noSeparator_of_defect?_eq_none hr
  have hsField := Request.noSeparator_of_defect?_eq_none hs
  have hlists := congrArg String.toList h
  simp only [decision, decisionsOn, String.toList_append, List.append_assoc,
    List.append_cancel_left_eq] at hlists
  obtain ⟨htype, hlists⟩ := append_separator_inj
    (hrField ("resourceType", r.resourceType) (by simp [Request.keyedFields, Request.requiredFields]))
    (hsField ("resourceType", s.resourceType) (by simp [Request.keyedFields, Request.requiredFields]))
    hlists
  obtain ⟨haction, hlists⟩ := append_separator_inj
    (hrField ("action", r.action) (by simp [Request.keyedFields, Request.requiredFields]))
    (hsField ("action", s.action) (by simp [Request.keyedFields, Request.requiredFields]))
    hlists
  obtain ⟨huser, htenant⟩ := append_tenant_inj
    (hrField ("userId", r.user) (by simp [Request.keyedFields, Request.requiredFields]))
    (hsField ("userId", s.user) (by simp [Request.keyedFields, Request.requiredFields]))
    hlists
  exact ⟨String.toList_injective htype, String.toList_injective haction,
    String.toList_injective huser, htenant⟩

/-- The key of a candidate list gives back its scope. -/
theorem candidates_scope {s t : Option String} (h : candidates s = candidates t) : s = t := by
  have hlists := congrArg String.toList h
  cases s with
  | none =>
      cases t with
      | none => rfl
      | some t => simp [candidates] at hlists
  | some s =>
      cases t with
      | none => simp [candidates] at hlists
      | some t =>
          simp only [candidates, String.toList_append, List.append_cancel_left_eq] at hlists
          exact congrArg some (String.toList_injective hlists)

theorem decision_begins (r : Request) : decisions.toList <+: (decision r).toList := by
  simp only [decision, decisionsOn, String.toList_append, List.append_assoc]
  exact List.prefix_append _ _

theorem candidates_begin (t : Option String) :
    candidateLists.toList <+: (candidates t).toList := by
  cases t with
  | none =>
      simp only [candidates, String.toList_append]
      exact List.prefix_append _ _
  | some t =>
      simp only [candidates, String.toList_append, List.append_assoc]
      exact List.prefix_append _ _

/-- What begins like a decision key begins like no key of a candidate list. -/
theorem not_decisions_prefix_candidates (tenant : Option String) :
    ¬ decisions.toList <+: (candidates tenant).toList := by
  intro hfirst
  rcases List.prefix_or_prefix_of_prefix hfirst (candidates_begin tenant) with hle | hle
  · exact absurd hle (by decide)
  · exact absurd hle (by decide)

/-- A decision and a candidate list are never kept under one key. -/
theorem decision_ne_candidates (r : Request) (t : Option String) : decision r ≠ candidates t := by
  intro h
  apply not_decisions_prefix_candidates t
  rw [← h]
  exact decision_begins r

theorem decision_congr {r s : Request} (htype : r.resourceType = s.resourceType)
    (haction : r.action = s.action) (huser : r.user = s.user) (htenant : r.tenant = s.tenant) :
    decision r = decision s := by
  simp only [decision, htype, haction, huser, htenant]

/-- The keys of fit requests are the same exactly where type, action, user and
trimmed tenant are, the keys of candidate lists exactly where the scopes are,
and no decision shares its key with a candidate list. So whatever user and
tenant a request names, it has no key of a request without tenant. -/
theorem keys_tell_apart :
    (∀ r s : Request, r.defect? = none → s.defect? = none →
      (decision r = decision s ↔ r.resourceType = s.resourceType ∧ r.action = s.action ∧
        r.user = s.user ∧ r.tenant = s.tenant)) ∧
      (∀ s t : Option String, candidates s = candidates t ↔ s = t) ∧
      (∀ (r : Request) (t : Option String), decision r ≠ candidates t) ∧
      ∀ r s : Request, r.defect? = none → s.defect? = none → r.tenant ≠ none →
        s.tenant = none → decision r ≠ decision s := by
  refine ⟨?_, ?_, decision_ne_candidates, ?_⟩
  · intro r s hr hs
    constructor
    · exact decision_components hr hs
    · rintro ⟨htype, haction, huser, htenant⟩
      exact decision_congr htype haction huser htenant
  · intro s t
    constructor
    · exact candidates_scope
    · rintro rfl
      rfl
  · intro r s hr hs hpresent habsent hkey
    obtain ⟨-, -, -, htenant⟩ := decision_components hr hs hkey
    exact hpresent (htenant.trans habsent)

/-! ## The patterns of an eviction -/

/-- What ends with the separator has no star to leave out. -/
theorem stem_of_separator {pattern : String} (front : String)
    (h : pattern.toList = front.toList ++ [':']) : LruCache.stem pattern = pattern.toList := by
  rw [LruCache.stem, h, List.reverse_append]
  rfl

theorem stem_decisionsOn (resourceType action : String) :
    LruCache.stem (decisionsOn resourceType action) =
      (decisionsOn resourceType action).toList := by
  apply stem_of_separator (decisions ++ resourceType ++ ":" ++ action)
  rw [decisionsOn, String.toList_append]
  rfl

/-- The pattern of a type and an action stands for the keys of the requests with
this type and this action, and for those of no other request. -/
theorem matchesPattern_decisionsOn {resourceType action : String}
    (htype : ':' ∉ resourceType.toList) (haction : ':' ∉ action.toList) {r : Request}
    (hfit : r.defect? = none) :
    LruCache.matchesPattern (decisionsOn resourceType action) (decision r) = true ↔
      r.resourceType = resourceType ∧ r.action = action := by
  have hfield := Request.noSeparator_of_defect?_eq_none hfit
  rw [LruCache.matchesPattern, stem_decisionsOn, List.isPrefixOf_iff_prefix]
  constructor
  · rintro ⟨rest, hrest⟩
    simp only [decision, decisionsOn, String.toList_append, List.append_assoc,
      List.append_cancel_left_eq] at hrest
    obtain ⟨htypes, hrest⟩ := append_separator_inj htype
      (hfield ("resourceType", r.resourceType)
        (by simp [Request.keyedFields, Request.requiredFields])) hrest
    obtain ⟨hactions, -⟩ := append_separator_inj haction
      (hfield ("action", r.action) (by simp [Request.keyedFields, Request.requiredFields])) hrest
    exact ⟨(String.toList_injective htypes).symm, (String.toList_injective hactions).symm⟩
  · rintro ⟨rfl, rfl⟩
    rw [decision, String.append_assoc, String.toList_append]
    exact List.prefix_append _ _

/-- The eviction of verdicts spares all candidate lists. -/
theorem matchesPattern_candidates (resourceType action : String) (tenant : Option String) :
    LruCache.matchesPattern (decisionsOn resourceType action) (candidates tenant) = false := by
  rw [← Bool.not_eq_true, LruCache.matchesPattern, stem_decisionsOn,
    List.isPrefixOf_iff_prefix]
  intro hmatch
  apply not_decisions_prefix_candidates tenant
  refine List.IsPrefix.trans ?_ hmatch
  simp only [decisionsOn, String.toList_append, List.append_assoc]
  exact List.prefix_append _ _

/-- Whether a key begins like the keys of the engine, those of decisions or those
of candidate lists. -/
def isEngineKey (key : String) : Bool :=
  decisions.toList.isPrefixOf key.toList || candidateLists.toList.isPrefixOf key.toList

theorem isEngineKey_decision (r : Request) : isEngineKey (decision r) = true := by
  rw [isEngineKey, List.isPrefixOf_iff_prefix.mpr (decision_begins r), Bool.true_or]

theorem isEngineKey_candidates (tenant : Option String) :
    isEngineKey (candidates tenant) = true := by
  rw [isEngineKey, List.isPrefixOf_iff_prefix.mpr (candidates_begin tenant), Bool.or_true]

end Key

end DecisionPoint
