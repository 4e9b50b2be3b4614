import DecisionPoint.Request

/-!
The keys of the cache. A decision is kept under resource type, action, user
and tenant, a list of candidate policies under the scope it was loaded for.
Components of a decision key must not hold the separator; requests are checked
for that before a key is made of them.
-/

namespace DecisionPoint.Key

/-- What all keys of decisions begin with. -/
def decisions : String := "policy_evaluation:"

/-- What all keys of candidate lists begin with. -/
def candidateLists : String := "policy_candidates:"

/-- What the keys of all decisions on an action on a resource type begin with. -/
def decisionsOn (resourceType action : String) : String :=
  decisions ++ resourceType ++ ":" ++ action ++ ":"

def decision (r : Request) : String :=
  decisionsOn r.resourceType r.action ++ r.user ++ (r.tenant.map (":" ++ ·)).getD ""

/-- The key of the candidates of a tenant, or of the requests without tenant. -/
def candidates : Option String → String
  | some tenant => candidateLists ++ "tenant:" ++ tenant
  | none => candidateLists ++ "global"

end DecisionPoint.Key
