import JamTokens.Token

/-!
# Symbol tables

A symbol table binds spellings to tokens.  It starts with the reserved words
and grows by identifiers: a spelling that is not bound yet is bound to a new
identifier the first time it is resolved, and keeps it for good.
-/

set_option autoImplicit false

namespace JamTokens

/-- The spellings that every table binds from the start, with their tokens. -/
def reservedWords : List (String × Token) :=
  [("null", .null), ("true", .bool true), ("false", .bool false),
   ("if", .keyword .if), ("then", .keyword .then), ("else", .keyword .else),
   ("let", .keyword .let), ("in", .keyword .in), ("map", .keyword .map),
   ("to", .keyword .to), (":=", .keyword .bind),
   ("number?", .primFun .isNumber), ("function?", .primFun .isFunction),
   ("list?", .primFun .isList), ("null?", .primFun .isNull), ("cons?", .primFun .isCons),
   ("arity", .primFun .arity), ("cons", .primFun .cons), ("first", .primFun .first),
   ("rest", .primFun .rest)]

structure Symbols where
  /-- The identifiers bound so far, earliest first. -/
  bound : List Ident
  deriving DecidableEq, Repr

namespace Symbols

def initial : Symbols := ⟨[]⟩

def size (t : Symbols) : Nat := reservedWords.length + t.bound.length

def get? (t : Symbols) (spelling : String) : Option Token :=
  match reservedWords.lookup spelling with
  | some token => some token
  | none => (t.bound.find? (·.spelling == spelling)).map .identifier

def contains (t : Symbols) (spelling : String) : Bool := (t.get? spelling).isSome

def isEmpty (t : Symbols) : Bool := t.size == 0

/-- The token bound to a spelling.  If there is none, the spelling is bound to
a new identifier, made by the act of the given number. -/
def resolveAs (t : Symbols) (act : Nat) (spelling : String) : Token × Symbols :=
  match t.get? spelling with
  | some token => (token, t)
  | none =>
    let name : Ident := ⟨spelling, act⟩
    (.identifier name, ⟨t.bound ++ [name]⟩)

/-- Resolves a spelling in a table that numbers its own acts. -/
def resolve (t : Symbols) (spelling : String) : Token × Symbols :=
  t.resolveAs t.bound.length spelling

end Symbols

/-- Tables of which some are copies of others.  Acts are numbered across all
of them, so a copy shares the identifiers bound before it was made and no
others. -/
structure SymbolFamily where
  tables : List Symbols
  /-- How many spellings have been resolved so far. -/
  acts : Nat
  deriving DecidableEq, Repr

namespace SymbolFamily

def initial : SymbolFamily := ⟨[.initial], 0⟩

def resolve (f : SymbolFamily) (table : Nat) (spelling : String) : Option Token × SymbolFamily :=
  match f.tables[table]? with
  | none => (none, f)
  | some t =>
    let (token, t') := t.resolveAs f.acts spelling
    (some token, ⟨f.tables.set table t', f.acts + 1⟩)

def get? (f : SymbolFamily) (table : Nat) (spelling : String) : Option Token :=
  f.tables[table]?.bind (·.get? spelling)

def contains (f : SymbolFamily) (table : Nat) (spelling : String) : Bool :=
  f.tables[table]?.any (·.contains spelling)

def copy (f : SymbolFamily) (table : Nat) : SymbolFamily :=
  match f.tables[table]? with
  | none => f
  | some t => { f with tables := f.tables ++ [t] }

def add (f : SymbolFamily) : SymbolFamily := { f with tables := f.tables ++ [.initial] }

def sizes (f : SymbolFamily) : List Nat := f.tables.map Symbols.size

end SymbolFamily

end JamTokens
