import JamTokens.Output.Record
import JamTokens.Toml.Reading

/-!
# Settings

The settings that a configuration file can hold.  Whatever it leaves out
keeps its default, and what it holds beside them is ignored.
-/

set_option autoImplicit false

namespace JamTokens

structure Settings where
  format : OutputFormat
  recover : Bool
  verbose : Bool
  deriving DecidableEq, Repr

namespace Settings

def default : Settings := ⟨.plain, false, false⟩

open Toml (Node Entries)

/-- The entries of a table, however it is written. -/
def tableEntries? : Node → Option Entries
  | .inline entries => some entries
  | .table _ entries => some entries
  | _ => none

def isBare : Node → Bool
  | .array items => items.isEmpty
  | .tables items => items.isEmpty
  | node => (tableEntries? node).any List.isEmpty

/-- The format that a node names: by its name, or by a table that has the
name as its one key and nothing behind it. -/
def formatOf? (node : Node) : Option OutputFormat :=
  match node with
  | .string s => OutputFormat.ofName? s
  | node => do
    match ← tableEntries? node with
    | [(name, content)] => if isBare content then OutputFormat.ofName? name else none
    | _ => none

def flagOf? : Node → Option Bool
  | .boolean b => some b
  | _ => none

def setting {α : Type} (entries : Entries) (key : String) (byDefault : α) (read : Node → Option α) :
    Option α :=
  match entries.lookup key with
  | none => some byDefault
  | some node => read node

def ofEntries? (entries : Entries) : Option Settings := do
  let format ← setting entries "format" default.format formatOf?
  let recover ← setting entries "recover" default.recover flagOf?
  let verbose ← setting entries "verbose" default.verbose flagOf?
  return ⟨format, recover, verbose⟩

def parse? (text : List Char) : Option Settings := (Toml.parse? text).bind ofEntries?

def flagText (b : Bool) : String := if b then "true" else "false"

def text (s : Settings) : String :=
  s!"format = \"{s.format.name}\"\n" ++
  s!"recover = {flagText s.recover}\n" ++
  s!"verbose = {flagText s.verbose}\n"

end Settings

end JamTokens
