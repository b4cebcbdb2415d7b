/-!
# TOML documents

A document is a table of named nodes.  A node remembers how it came about,
because that decides what may be added to it later: a table opened by its own
header is complete once the next header comes, a table that only lies on the
way to another one may still get its header, and a table written in braces
takes no further entries.
-/

set_option autoImplicit false

namespace JamTokens.Toml

/-- How a table came about. -/
inductive Opening
  /-- By a header that names it. -/
  | header
  /-- On the way of a header that names a table inside it. -/
  | onTheWay
  /-- By a dotted key. -/
  | dottedKey
  deriving DecidableEq, Repr

inductive Node
  | string (s : String)
  | integer (n : Int)
  /-- A number that is no integer, as it is written. -/
  | float (text : String)
  | boolean (b : Bool)
  /-- A date, a time or both, as written. -/
  | datetime (text : String)
  | array (items : List Node)
  /-- A table written in braces. -/
  | inline (entries : List (String × Node))
  | table (opening : Opening) (entries : List (String × Node))
  /-- Tables opened by headers in double brackets, latest last. -/
  | tables (items : List (List (String × Node)))

abbrev Entries := List (String × Node)

namespace Entries

def replace (entries : Entries) (key : String) (node : Node) : Entries :=
  entries.map fun entry => if entry.1 = key then (key, node) else entry

def insert? (entries : Entries) (key : String) (node : Node) : Option Entries :=
  if (entries.lookup key).isSome then none else some (entries ++ [(key, node)])

/-- Changes the table that a path leads to, and tells what the change does.
Tables that are missing on the way are made.  A dotted key does not lead into
a table that has a header. -/
def within {α : Type} (dotted : Bool) (change : Opening → Entries → Option (α × Entries)) :
    List String → Opening → Entries → Option (α × Entries)
  | [], opening, entries => change opening entries
  | key :: path, _, entries =>
    match entries.lookup key with
    | none => do
      let opening := if dotted then Opening.dottedKey else .onTheWay
      let (told, inner) ← within dotted change path opening []
      return (told, entries ++ [(key, .table opening inner)])
    | some (.table opening inner) =>
      if dotted && opening = .header then none
      else do
        let (told, inner) ← within dotted change path opening inner
        return (told, entries.replace key (.table opening inner))
    | some (.tables items) => do
      let (told, last) ← within dotted change path .header (← items.getLast?)
      return (told, entries.replace key (.tables (items.dropLast ++ [last])))
    | some _ => none

/-- Changes the table that the path of a header leads to. -/
def atHeader (entries : Entries) (path : List String) (change : Entries → Option Entries) :
    Option Entries :=
  (within false (fun _ inner => (change inner).map ((), ·)) path .header entries).map (·.2)

/-- Adds an entry under a dotted key.  The table it goes into must have been
made by dotted keys alone. -/
def assign? (entries : Entries) (path : List String) (key : String) (node : Node) :
    Option Entries :=
  let add (opening : Opening) (inner : Entries) : Option (Unit × Entries) :=
    if path.isEmpty || opening = .dottedKey then (inner.insert? key node).map ((), ·) else none
  (within true add path .header entries).map (·.2)

end Entries

/-- The table that is being filled. -/
inductive Target
  | root
  /-- A table with a header: the way to it and its key. -/
  | table (path : List String) (key : String)
  /-- A table with a header in double brackets. -/
  | tables (path : List String) (key : String)

inductive Statement
  | assign (path : List String) (key : String) (node : Node)
  | header (target : Target)

/-- A document of which some statements have been read. -/
structure Document where
  complete : Entries
  current : Entries
  target : Target

namespace Document

def empty : Document := ⟨[], [], .root⟩

def finish (d : Document) : Option Entries :=
  match d.target with
  | .root => some d.current
  | .table path key =>
    d.complete.atHeader path (·.insert? key (.table .header d.current))
  | .tables path key =>
    d.complete.atHeader path fun inner =>
      match inner.lookup key with
      | none => some (inner ++ [(key, .tables [d.current])])
      | some (.tables items) => some (inner.replace key (.tables (items ++ [d.current])))
      | some _ => none

/-- Begins the table of a header.  A table that so far only lay on the way
keeps its entries; any other table of that name makes the header an error. -/
def begin (complete : Entries) : Target → Option Document
  | .root => none
  | .table path key => do
    let take (_ : Opening) (inner : Entries) : Option (Entries × Entries) :=
      match inner.lookup key with
      | none => some ([], inner)
      | some (.table .onTheWay entries) => some (entries, inner.filter (·.1 != key))
      | some _ => none
    let (current, complete) ← complete.within false take path .header
    return ⟨complete, current, .table path key⟩
  | .tables path key => do
    let complete ← complete.atHeader path fun inner =>
      match inner.lookup key with
      | none => some inner
      | some (.tables _) => some inner
      | some _ => none
    return ⟨complete, [], .tables path key⟩

def add (d : Document) : Statement → Option Document
  | .assign path key node => do
    return { d with current := ← d.current.assign? path key node }
  | .header target => do begin (← d.finish) target

/-- The entries that the statements make together, if they fit together. -/
def ofStatements (statements : List Statement) : Option Entries := do
  (← statements.foldlM add empty).finish

end Document

end JamTokens.Toml
