import DecisionPoint.Toml.Scalar

/-!
Reading TOML documents. A document is a list of lines: entries, headers of
tables and headers of elements of arrays of tables. Each line is read by
itself, and the lines are then put together into one table.
-/

namespace DecisionPoint.Toml

/-- One line of a document that says something. -/
inductive Line where
  | entry (path : List String) (key : String) (node : Node)
  | table (path : List String) (key : String)
  | element (path : List String) (key : String)
deriving Repr

/-- The number of nested arrays and inline tables, and of parts of a dotted
key, that is refused. -/
def depthLimit : Nat := 80

/-! ## Keys -/

def isBare (c : Char) : Bool :=
  c.isAlphanum || c == '_' || c == '-'

def readKeyPart (cs : List Char) : Option (String × List Char) :=
  match cs with
  | '"' :: _ => readLineString cs
  | '\'' :: _ => readLineString cs
  | cs =>
    let part := cs.takeWhile isBare
    if part = [] then none else some (String.ofList part, cs.drop part.length)

/-- Reads the parts of a key, blanks around each included. -/
def readKeyParts : Nat → List Char → Option (List String × List Char)
  | 0, _ => none
  | fuel + 1, cs => do
    let (part, rest) ← readKeyPart (skipSpace cs)
    match skipSpace rest with
    | '.' :: rest =>
      let (parts, rest) ← readKeyParts fuel rest
      return (part :: parts, rest)
    | rest => return ([part], rest)

/-- Reads a key as the path before its last part and that part. -/
def readKey (cs : List Char) : Option (List String × String × List Char) := do
  let (parts, rest) ← readKeyParts depthLimit cs
  let key ← parts.getLast?
  if parts.length < depthLimit then some (parts.dropLast, key, rest) else none

/-! ## Values -/

def skipComment : List Char → List Char
  | '#' :: rest => rest.dropWhile isPlain
  | cs => cs

def skipSpread : Nat → List Char → List Char
  | 0, cs => cs
  | fuel + 1, cs =>
    match skipLines cs with
    | '#' :: rest =>
      match readNewline (rest.dropWhile isPlain) with
      | some rest => skipSpread fuel rest
      | none => '#' :: rest
    | cs => cs

/-- Skips blanks, line ends and comments between the items of an array. -/
def skipBetween (cs : List Char) : List Char :=
  skipSpread cs.length cs

mutual

/-- Reads a value that nests less than `room` deep. -/
def readValue : Nat → Nat → List Char → Option (Node × List Char)
  | 0, _, _ => none
  | fuel + 1, room, cs =>
    match cs with
    | '"' :: _ => (readString cs).map fun (s, rest) => (.string s, rest)
    | '\'' :: _ => (readString cs).map fun (s, rest) => (.string s, rest)
    | 't' :: 'r' :: 'u' :: 'e' :: rest => some (.bool true, rest)
    | 'f' :: 'a' :: 'l' :: 's' :: 'e' :: rest => some (.bool false, rest)
    | '[' :: rest =>
      if room = 0 then none
      else (readItems fuel (room - 1) rest).map fun (items, rest) => (.array items, rest)
    | '{' :: rest =>
      if room = 0 then none
      else
        match skipSpace rest with
        | '}' :: rest => some (.table .inlined [], rest)
        | rest =>
          (readEntries fuel (room - 1) [] rest).map fun (entries, rest) =>
            (.table .inlined entries, rest)
    | cs => readNumeric cs

/-- Reads the items of an array up to its closing bracket. A comma may stand
behind the last one. -/
def readItems : Nat → Nat → List Char → Option (List Node × List Char)
  | 0, _, _ => none
  | fuel + 1, room, cs =>
    match skipBetween cs with
    | ']' :: rest => some ([], rest)
    | cs => do
      let (item, rest) ← readValue fuel room cs
      match skipBetween rest with
      | ',' :: rest =>
        let (items, rest) ← readItems fuel room rest
        return (item :: items, rest)
      | ']' :: rest => return ([item], rest)
      | _ => none

/-- Reads the entries of an inline table up to its closing brace, adding them
to those read before. -/
def readEntries : Nat → Nat → Entries → List Char → Option (Entries × List Char)
  | 0, _, _, _ => none
  | fuel + 1, room, entries, cs => do
    let (path, key, rest) ← readKey cs
    match rest with
    | '=' :: rest =>
      let (node, rest) ← readValue fuel room (skipSpace rest)
      let entries ← entries.define .inlined path key node
      match skipSpace rest with
      | ',' :: rest => readEntries fuel room entries rest
      | '}' :: rest => return (entries, rest)
      | _ => none
    | _ => none

end

/-! ## Lines -/

/-- Reads the end of a line with a comment before it, or the end of the text. -/
def readLineEnd (cs : List Char) : Option (List Char) :=
  match skipComment (skipSpace cs) with
  | [] => some []
  | rest => readNewline rest

def readEntry (cs : List Char) : Option (Line × List Char) := do
  let (path, key, rest) ← readKey cs
  match rest with
  | '=' :: rest =>
    let rest := skipSpace rest
    let (node, rest) ← readValue (2 * rest.length + 2) (depthLimit - 1) rest
    return (.entry path key node, rest)
  | _ => none

/-- Reads a header or an entry, which begins at the first character. -/
def readLine : List Char → Option (Line × List Char)
  | '[' :: '[' :: rest => do
    let (path, key, rest) ← readKey rest
    match rest with
    | ']' :: ']' :: rest => return (.element path key, rest)
    | _ => none
  | '[' :: rest => do
    let (path, key, rest) ← readKey rest
    match rest with
    | ']' :: rest => return (.table path key, rest)
    | _ => none
  | cs => readEntry cs

def readLines : Nat → List Char → Option (List Line)
  | 0, _ => none
  | fuel + 1, cs =>
    match skipSpace cs with
    | [] => some []
    | cs =>
      if cs.head? = some '#' ∨ (readNewline cs).isSome then do
        readLines fuel (← readLineEnd cs)
      else do
        let (line, rest) ← readLine cs
        let lines ← readLines fuel (← readLineEnd rest)
        return line :: lines

/-! ## Tables -/

/-- A document under construction: the table so far, and the table that the
lines being read belong to, with how it is to be put into its place. -/
structure Draft where
  root : Entries
  place : Option (Line × List String × String)
  current : Entries

def Draft.close (d : Draft) : Option Entries :=
  match d.place with
  | none => some d.current
  | some (.element _ _, path, key) =>
    Entries.modify .implied
      (fun _ entries =>
        match entries.lookup key with
        | none => some (Entries.put key (.tables [.table .header d.current]) entries)
        | some (.tables elements) =>
          some (Entries.put key (.tables (elements ++ [.table .header d.current])) entries)
        | some _ => none)
      .header path d.root
  | some (_, path, key) =>
    Entries.modify .implied
      (fun _ entries => some (Entries.put key (.table .header d.current) entries))
      .header path d.root

/-- The entries that the place of a new table already has. A table may be
defined there only once, but tables inside it may have been defined before. -/
def Draft.found? (root : Entries) (path : List String) (key : String) : Option Entries :=
  match path with
  | [] =>
    match root.lookup key with
    | none => some []
    | some (.table .implied entries) => some entries
    | some _ => none
  | first :: path =>
    match root.lookup first with
    | none => some []
    | some (.table .inlined _) => none
    | some (.table _ entries) => found? entries path key
    | some (.tables elements) =>
      match elements.getLast? with
      | some (.table _ entries) => found? entries path key
      | _ => none
    | some _ => none

def Draft.add (d : Draft) (line : Line) : Option Draft :=
  match line with
  | .entry path key node => do
    return { d with current := ← d.current.define .header path key node }
  | .table path key => do
    let root ← d.close
    let found ← found? root path key
    return ⟨root, some (line, path, key), found⟩
  | .element path key => do
    let root ← d.close
    return ⟨root, some (line, path, key), []⟩

def build? (lines : List Line) : Option Entries := do
  (← lines.foldlM Draft.add ⟨[], none, []⟩).close

/-- Reads a document. A byte order mark at its front does not count. -/
def read? (cs : List Char) : Option Entries := do
  let cs := if cs.head? = some '\ufeff' then cs.drop 1 else cs
  build? (← readLines (cs.length + 1) cs)

end DecisionPoint.Toml
