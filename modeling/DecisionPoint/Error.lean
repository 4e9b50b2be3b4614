import DecisionPoint.Json.Record

/-!
What can go wrong, by cause, and the sentences that say so. Callers see
engine errors. The store, the cache and the executor of actions report errors
of their own, of which only the store's reach a caller.
-/

namespace DecisionPoint

inductive RequestDefect where
  | notText (found : Json.Value)
  | badTimestamp (text : String)
  | missing (field : String)
deriving Repr

/-- Why a request is refused before anything is done for it. -/
inductive RequestError where
  | notJson
  | isNull
  | notObject
  | undecodable (defect : RequestDefect)
  | required (field : String)
  | holdsSeparator (field : String)
deriving Repr

inductive ConfigError where
  | noDefaultTtl
  | noCandidateTtl
  | noTimeout
  | noWorkers
  | noQueue
  | offsetOutside (minutes : Int) (greatest : Nat)
deriving DecidableEq, Repr

inductive FileError where
  | notFound
  | notText
deriving DecidableEq, Repr

/-- A failure that the policy store reports, a time-out in milliseconds. -/
inductive StoreError where
  | unavailable (reason : String)
  | timeout (elapsed : Nat)
deriving DecidableEq, Repr

inductive CacheError where
  | unavailable (reason : String)
  | serialization (reason : String)
deriving DecidableEq, Repr

structure ActionError where
  reason : String
deriving DecidableEq, Repr

/-- What a caller of the engine may see, times in milliseconds. -/
inductive EngineError where
  | invalidRequest (cause : RequestError)
  | storeUnavailable (reason : String)
  | storeTimeout (elapsed budget : Nat)
  | aborted
  | invalidConfig (cause : ConfigError)
  | configFile (cause : FileError)
  | configSyntax
deriving Repr

namespace RequestDefect

/-- What stands where a text is expected. -/
def found : Json.Value → String
  | .null => "null"
  | .bool b => s!"boolean `{b}`"
  | .number n =>
    match n.quantity? with
    | some (.integer i) => s!"integer `{String.ofList (Text.integer i)}`"
    | some q => s!"floating point `{String.ofList q.text}`"
    | none => "number"
  | .string _ => "string"
  | .array _ => "sequence"
  | .object _ => "map"

def message : RequestDefect → String
  | .notText v => s!"invalid type: {found v}, expected a string"
  | .badTimestamp text => s!"invalid timestamp '{text}'"
  | .missing field => s!"missing field `{field}`"

end RequestDefect

namespace RequestError

def message : RequestError → String
  | .notJson => "request is not valid JSON"
  | .isNull => "request is null"
  | .notObject => "request must be a JSON object"
  | .undecodable defect => s!"undecodable request: {defect.message}"
  | .required field => s!"{field} is required"
  | .holdsSeparator field => s!"{field} must not contain ':'"

end RequestError

namespace ConfigError

def message : ConfigError → String
  | .noDefaultTtl => "default_ttl_minutes must be at least 1"
  | .noCandidateTtl => "candidate_ttl_minutes must be at least 1 when cache_candidates is set"
  | .noTimeout => "store_timeout_ms and cache_timeout_ms must be at least 1"
  | .noWorkers => "action_workers must be at least 1"
  | .noQueue => "action_queue_capacity must be at least 1"
  | .offsetOutside minutes greatest =>
    s!"local_utc_offset_minutes {minutes} is outside +/-{greatest}"

end ConfigError

namespace StoreError

def message : StoreError → String
  | .unavailable reason => s!"store unavailable: {reason}"
  | .timeout elapsed => s!"store query timed out after {elapsed}ms"

/-- What a caller sees of a failure. A reported time-out counts as one that
took just its budget. -/
def toEngine : StoreError → EngineError
  | .unavailable reason => .storeUnavailable reason
  | .timeout elapsed => .storeTimeout elapsed elapsed

end StoreError

def CacheError.message : CacheError → String
  | .unavailable reason => s!"cache unavailable: {reason}"
  | .serialization reason => s!"cache entry could not be (de)serialized: {reason}"

def ActionError.message (e : ActionError) : String :=
  s!"action failed: {e.reason}"

namespace EngineError

/-- The sentence of an error, for the errors whose sentence is fixed. -/
def message? : EngineError → Option String
  | .invalidRequest cause => some s!"Invalid request: {cause.message}"
  | .storeUnavailable reason => some s!"Policy store unavailable: {reason}"
  | .storeTimeout elapsed budget =>
    some s!"Policy store timed out after {elapsed}ms (budget {budget}ms)"
  | .aborted => none
  | .invalidConfig cause => some s!"Invalid configuration: {cause.message}"
  | .configFile _ => none
  | .configSyntax => none

/-- Whether the same request may be tried again later. -/
def isRetryable : EngineError → Bool
  | .storeUnavailable _ => true
  | .storeTimeout _ _ => true
  | _ => false

end EngineError

end DecisionPoint
