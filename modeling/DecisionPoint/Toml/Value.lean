/-!
TOML documents as trees of tables. A table remembers how it came about, since
that decides how the rest of the document may add to it. The values of reals
and of dates are not kept: no setting is one, and only their syntax matters.
-/

namespace DecisionPoint.Toml

/-- How a table came about: by its header, by the header of a table inside it,
by a dotted key, or written out as a value. -/
inductive Origin where
  | header
  | implied
  | dotted
  | inlined
deriving DecidableEq, Repr

inductive Node where
  | string (s : String)
  | integer (i : Int)
  | real
  | bool (b : Bool)
  | date
  | array (items : List Node)
  | table (origin : Origin) (entries : List (String × Node))
  | tables (elements : List Node)
deriving Repr

abbrev Entries := List (String × Node)

namespace Entries

/-- Replaces the entry of a key in its place, or adds one at the end. -/
def put (key : String) (node : Node) : Entries → Entries
  | [] => [(key, node)]
  | (k, n) :: rest => if k = key then (key, node) :: rest else (k, n) :: put key node rest

/-- Changes the table that a path of keys leads to, making those missing on the
way as tables of origin `made`. A path goes through the last element of an
array of tables, and never into a value. A path of dotted keys may enter only
tables that no header has defined. -/
def modify (made : Origin) (f : Origin → Entries → Option Entries) (origin : Origin)
    (path : List String) (entries : Entries) : Option Entries :=
  match path with
  | [] => f origin entries
  | key :: path =>
    match entries.lookup key with
    | none => do
      let inner ← modify made f made path []
      return put key (.table made inner) entries
    | some (.table origin inner) =>
      if origin = .inlined ∨ (made = .dotted ∧ origin = .header) then
        none
      else do
        let inner ← modify made f origin path inner
        return put key (.table origin inner) entries
    | some (.tables elements) =>
      match elements.reverse with
      | .table origin inner :: before => do
        let inner ← modify made f origin path inner
        return put key (.tables (.table origin inner :: before).reverse) entries
      | _ => none
    | some _ => none

/-- Adds the value of a dotted key, given as the path before its last part and
that part. The key must be new, and the table it goes into must have come
about by dotted keys just when the path is not empty. -/
def define (root : Origin) (path : List String) (key : String) (node : Node)
    (entries : Entries) : Option Entries :=
  modify .dotted
    (fun origin entries =>
      if (origin = .dotted) = (path = []) ∨ (entries.lookup key).isSome then none
      else some (entries ++ [(key, node)]))
    root path entries

end Entries

end DecisionPoint.Toml
