import JamTokens.Toml.Scalar

/-!
# Reading TOML

A document is read line by line: a line holds a header, an entry or nothing,
and may end in a comment.  Values nest at most 79 deep, and a key has at most
79 parts.
-/

set_option autoImplicit false

namespace JamTokens.Toml

/-- How deep values nest, and how many parts a key has, at most. -/
def nesting : Nat := 79

/-- The values of an array, behind its bracket.  Every value takes up at least
one character, so `fuel` need not exceed the length of the text. -/
def arrayItems (value : Reader Node) : Nat → Reader (List Node)
  | 0, _ => none
  | fuel + 1, text =>
    match skipTrivia false text with
    | ']' :: rest => some ([], rest)
    | text => do
      let (item, rest) ← value text
      match skipTrivia false rest with
      | ',' :: rest =>
        let (items, rest) ← arrayItems value fuel rest
        return (item :: items, rest)
      | ']' :: rest => return ([item], rest)
      | _ => none

def entry (value : Reader Node) (text : List Char) :
    Option ((List String × String × Node) × List Char) := do
  let (parts, rest) ← key nesting text
  let rest ← expect '=' rest
  let (node, rest) ← value (skipSpaces rest)
  let last ← parts.getLast?
  return ((parts.dropLast, last, node), rest)

/-- The entries of a table in braces, from the first key on. -/
def inlineEntries (value : Reader Node) : Nat → Entries → Reader Entries
  | 0, _, _ => none
  | fuel + 1, entries, text => do
    let ((path, key, node), rest) ← entry value text
    let entries ← entries.assign? path key node
    match skipSpaces rest with
    | ',' :: rest => inlineEntries value fuel entries rest
    | '}' :: rest => return (entries, rest)
    | _ => none

def value : Nat → Reader Node
  | depth, '[' :: rest =>
    match depth with
    | 0 => none
    | depth + 1 => do
      let (items, rest) ← arrayItems (value depth) (rest.length + 1) rest
      return (.array items, rest)
  | depth, '{' :: rest =>
    match depth with
    | 0 => none
    | depth + 1 =>
      match skipSpaces rest with
      | '}' :: rest => some (.inline [], rest)
      | text => do
        let (entries, rest) ← inlineEntries (value depth) (rest.length + 1) [] text
        return (.inline entries, rest)
  | _, text => scalar text

def headerTarget (make : List String → String → Target) (parts : List String) : Option Statement := do
  return .header (make parts.dropLast (← parts.getLast?))

/-- The statement at the head of a text, without the end of its line. -/
def statement : Reader Statement
  | '[' :: '[' :: rest => do
    let (parts, rest) ← key nesting rest
    let rest ← expect ']' (← expect ']' rest)
    return (← headerTarget .tables parts, rest)
  | '[' :: rest => do
    let (parts, rest) ← key nesting rest
    return (← headerTarget .table parts, ← expect ']' rest)
  | text => do
    let ((path, key, node), rest) ← entry (value nesting) text
    return (.assign path key node, rest)

/-- The statements of a text.  Every line takes up at least one character, so
`fuel` need not exceed the length of the text. -/
def statements : Nat → List Char → Option (List Statement)
  | 0, text => if text.isEmpty then some [] else none
  | fuel + 1, text =>
    if text.isEmpty then some []
    else
      match endLine text with
      | some rest => statements fuel rest
      | none => do
        let (first, rest) ← statement (skipSpaces text)
        let more ← statements fuel (← endLine rest)
        return first :: more

/-- A mark of the byte order at the head of a text is no part of it. -/
def skipByteOrderMark (text : List Char) : List Char :=
  if text.head? = some '\uFEFF' then text.drop 1 else text

def parse? (text : List Char) : Option Entries :=
  let text := skipByteOrderMark text
  (statements text.length text).bind Document.ofStatements

end JamTokens.Toml
