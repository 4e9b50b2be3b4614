/-!
A cache of bounded size whose entries also expire. Entries stand in the order
of their last use, the most recent first, and the last one is displaced when
there is no room. An expired entry holds its place until it is asked for.

Times are points on a scale that only the passing of time moves, in
nanoseconds; an entry lives while its end lies ahead.
-/

namespace DecisionPoint

/-- A kept value with the time it expires at. -/
structure CacheEntry where
  key : String
  value : String
  expiresAt : Nat
deriving DecidableEq, Repr

/-- The entries, the most recently used first, and how many there may be. -/
structure LruCache where
  capacity : Nat
  entries : List CacheEntry
deriving DecidableEq, Repr

namespace LruCache

/-- A cache without entries. There is always room for one. -/
def empty (capacity : Nat) : LruCache :=
  ⟨max capacity 1, []⟩

def defaultCapacity : Nat := 10000

def size (c : LruCache) : Nat :=
  c.entries.length

def keys (c : LruCache) : List String :=
  c.entries.map (·.key)

/-- The entry of a key, expired or not. -/
def entry? (c : LruCache) (key : String) : Option CacheEntry :=
  c.entries.find? (·.key == key)

def erase (c : LruCache) (key : String) : LruCache :=
  { c with entries := c.entries.filter (·.key != key) }

def clear (c : LruCache) : LruCache :=
  { c with entries := [] }

/-- The value of a key, and the cache after it was asked for: a live entry is
moved to the front, an expired one is gone. -/
def get (c : LruCache) (now : Nat) (key : String) : Option String × LruCache :=
  match c.entry? key with
  | none => (none, c)
  | some e =>
    if now < e.expiresAt then (some e.value, { c with entries := e :: (c.erase key).entries })
    else (none, c.erase key)

/-- Keeps a value for a span from now on, in front of all others. -/
def insert (c : LruCache) (now : Nat) (key value : String) (ttl : Nat) : LruCache :=
  { c with entries := (⟨key, value, now + ttl⟩ :: (c.erase key).entries).take c.capacity }

/-- Whether a key has a live entry. Nothing is moved. -/
def contains (c : LruCache) (now : Nat) (key : String) : Bool :=
  (c.entry? key).any fun e => now < e.expiresAt

/-- What a pattern stands for: itself, less one star at its end. -/
def stem (pattern : String) : List Char :=
  match pattern.toList.reverse with
  | '*' :: rest => rest.reverse
  | _ => pattern.toList

/-- Whether a key begins with what a pattern stands for. -/
def matchesPattern (pattern key : String) : Bool :=
  (stem pattern).isPrefixOf key.toList

/-- Removes all keys that match a pattern, and counts them. -/
def erasePattern (c : LruCache) (pattern : String) : Nat × LruCache :=
  let (doomed, kept) := c.entries.partition fun e => matchesPattern pattern e.key
  (doomed.length, { c with entries := kept })

end LruCache

end DecisionPoint
