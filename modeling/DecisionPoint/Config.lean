import DecisionPoint.Error
import DecisionPoint.Policy.Decision
import DecisionPoint.Time.Instant
import DecisionPoint.Toml.Reader

/-!
The settings of the engine. They are read from a TOML document in which every
key is optional, and must pass a check before an engine is built on them.
-/

namespace DecisionPoint

structure Config where
  /-- How long decisions without a lifetime of their own are kept, in minutes. -/
  defaultTtl : UInt32
  /-- How long candidate lists are kept, in minutes. -/
  candidateTtl : UInt32
  /-- Whether candidate lists are kept at all. -/
  cacheCandidates : Bool
  /-- The decision where no policy applies. -/
  noMatch : Decision
  /-- Whether verdicts carry their trace. -/
  details : Bool
  /-- The time one query of the store may take, in milliseconds. -/
  storeTimeout : UInt64
  /-- The time one read of the cache may take, in milliseconds. -/
  cacheTimeout : UInt64
  /-- The minutes that local time is ahead of UTC. -/
  utcOffset : Int32
  /-- The number of workers that execute actions. -/
  workers : UInt64
  /-- The number of actions that may wait for a worker. -/
  queueCapacity : UInt64
deriving DecidableEq, Repr

namespace Config

/-- The settings where nothing else is said. -/
def standard : Config where
  defaultTtl := 5
  candidateTtl := 5
  cacheCandidates := true
  noMatch := .allow
  details := false
  storeTimeout := 2000
  cacheTimeout := 250
  utcOffset := 0
  workers := 2
  queueCapacity := 1024

instance : Inhabited Config := ⟨standard⟩

/-- The greatest offset from UTC, in minutes either way. -/
def greatestOffset : Nat := 18 * 60

def defect? (c : Config) : Option ConfigError :=
  if c.defaultTtl = 0 then some .noDefaultTtl
  else if c.cacheCandidates ∧ c.candidateTtl = 0 then some .noCandidateTtl
  else if c.storeTimeout = 0 ∨ c.cacheTimeout = 0 then some .noTimeout
  else if c.workers = 0 then some .noWorkers
  else if c.queueCapacity = 0 then some .noQueue
  else if greatestOffset < c.utcOffset.toInt.natAbs then
    some (.offsetOutside c.utcOffset.toInt greatestOffset)
  else none

def validate (c : Config) : Except EngineError Config :=
  match c.defect? with
  | some cause => .error (.invalidConfig cause)
  | none => .ok c

def storeBudget (c : Config) : Nat :=
  Time.ofMillis c.storeTimeout.toNat

def cacheBudget (c : Config) : Nat :=
  Time.ofMillis c.cacheTimeout.toNat

/-! ## Reading settings -/

/-- The integer of a node that is not negative and below `bound`. -/
def natOf? (bound : Nat) : Toml.Node → Option Nat
  | .integer i => if 0 ≤ i ∧ i < bound then some i.toNat else none
  | _ => none

/-- The integer of a node that fits 32 bits with a sign. -/
def int32Of? : Toml.Node → Option Int32
  | .integer i =>
    if Int32.minValue.toInt ≤ i ∧ i ≤ Int32.maxValue.toInt then some (Int32.ofInt i) else none
  | _ => none

def boolOf? : Toml.Node → Option Bool
  | .bool b => some b
  | _ => none

/-- The decision of a node: its word, or a table whose one entry has the word
for its key and holds a table or an array with nothing in it. -/
def decisionOf? : Toml.Node → Option Decision
  | .string s => Decision.ofWord? s
  | .table _ [(word, .table _ [])] => Decision.ofWord? word
  | .table _ [(word, .array [])] => Decision.ofWord? word
  | _ => none

/-- The setting of a key, or its standard value where the key is missing. -/
def setting (entries : Toml.Entries) (key : String) (standard : α)
    (decode : Toml.Node → Option α) : Option α :=
  match entries.lookup key with
  | none => some standard
  | some node => decode node

/-- The settings of a document. Keys that are no setting are skipped. -/
def ofEntries? (entries : Toml.Entries) : Option Config := do
  let uint32 (node : Toml.Node) : Option UInt32 := (natOf? UInt32.size node).map UInt32.ofNat
  let uint64 (node : Toml.Node) : Option UInt64 := (natOf? UInt64.size node).map UInt64.ofNat
  return {
    defaultTtl := ← setting entries "default_ttl_minutes" standard.defaultTtl uint32
    candidateTtl := ← setting entries "candidate_ttl_minutes" standard.candidateTtl uint32
    cacheCandidates := ← setting entries "cache_candidates" standard.cacheCandidates boolOf?
    noMatch := ← setting entries "no_match_decision" standard.noMatch decisionOf?
    details := ← setting entries "include_evaluation_details" standard.details boolOf?
    storeTimeout := ← setting entries "store_timeout_ms" standard.storeTimeout uint64
    cacheTimeout := ← setting entries "cache_timeout_ms" standard.cacheTimeout uint64
    utcOffset := ← setting entries "local_utc_offset_minutes" standard.utcOffset int32Of?
    workers := ← setting entries "action_workers" standard.workers uint64
    queueCapacity := ← setting entries "action_queue_capacity" standard.queueCapacity uint64 }

def ofText (s : String) : Except EngineError Config :=
  match (Toml.read? s.toList).bind ofEntries? with
  | none => .error .configSyntax
  | some c => c.validate

/-- Reads and checks the settings of a file, given what the file holds, if
there is one. -/
def ofFile : Option ByteArray → Except EngineError Config
  | none => .error (.configFile .notFound)
  | some bytes =>
    match String.fromUTF8? bytes with
    | none => .error (.configFile .notText)
    | some s => ofText s

end Config

end DecisionPoint
