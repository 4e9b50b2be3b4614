import DecisionPoint.Policy.Basic

/-!
A store of policies in memory. Policies have distinct keys and keep the order
in which their keys came in; a policy that replaces another takes its place.
The two queries select by scope, whatever the bounds of validity, since those
are looked at when a request is decided.
-/

namespace DecisionPoint

/-- The stored policies, and how many queries were answered. -/
structure PolicyStore where
  policies : List Policy
  queries : Nat
deriving Repr

namespace PolicyStore

def empty : PolicyStore :=
  ⟨[], 0⟩

/-- Replaces the policy of a key in its place, or adds one at the end. -/
def place (p : Policy) : List Policy → List Policy
  | [] => [p]
  | q :: rest => if q.key = p.key then p :: rest else q :: place p rest

def upsert (s : PolicyStore) (p : Policy) : PolicyStore :=
  { s with policies := place p s.policies }

def ofList (policies : List Policy) : PolicyStore :=
  policies.foldl upsert empty

def contains (s : PolicyStore) (key : String) : Bool :=
  s.policies.any (·.key == key)

def erase (s : PolicyStore) (key : String) : PolicyStore :=
  { s with policies := s.policies.filter (·.key != key) }

def get? (s : PolicyStore) (key : String) : Option Policy :=
  s.policies.find? (·.key == key)

def size (s : PolicyStore) : Nat :=
  s.policies.length

/-- The policies that a test selects, and the store after one more query. -/
def select (s : PolicyStore) (test : Policy → Bool) : List Policy × PolicyStore :=
  (s.policies.filter test, { s with queries := s.queries + 1 })

def findGlobal (s : PolicyStore) : List Policy × PolicyStore :=
  s.select (·.isGlobal)

/-- The policies of a tenant that may decide something. -/
def findActive (s : PolicyStore) (tenant : String) : List Policy × PolicyStore :=
  s.select fun p => p.tenant == some tenant && p.isCandidate

end PolicyStore

end DecisionPoint
