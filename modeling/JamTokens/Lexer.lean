import JamTokens.Lexeme.Scanner
import JamTokens.Token.Symbols
import JamTokens.Number.Literal
import JamTokens.Lexer.Error

/-!
# The lexer

The lexer makes tokens of lexemes.  A word is resolved in the lexer's own
symbol table and a number becomes a constant.  A few characters look at the
whole next lexeme for an equals sign, so that blanks and comments do not part
the two; a follower that is no equals sign is handed back.  One token can be
looked at before it is read.

A call that fails binds nothing and leaves no token behind.
-/

set_option autoImplicit false

namespace JamTokens

structure Lexer where
  scanner : Scanner
  symbols : Symbols
  /-- The token that has been looked at and not yet read, with its start. -/
  peeked : Option (Token × Position)
  position : Position
  deriving DecidableEq, Repr

namespace Lexer

/-- A lexer over a feed that already knows some identifiers. -/
def withSymbols (feed : Feed) (symbols : Symbols) : Lexer :=
  ⟨.ofFeed feed, symbols, none, .start⟩

def ofFeed (feed : Feed) : Lexer := withSymbols feed .initial

def ofSource (source : Source) : Lexer := ofFeed source.feed

def line (l : Lexer) : Nat := l.scanner.line

variable [Counting]

def unpaired (c : Char) (follower : Lexeme) (start : Position) : LexError :=
  match follower with
  | .endOfInput => .illegalOperatorSequence s!"{c} at end of input" start
  | other => .illegalOperatorSequence s!"{c}{other.text}" start

def pair (l : Lexer) (c : Char) (pairing : Pairing) (start : Position) : Except LexError Token × Lexer :=
  match l.scanner.next with
  | (.error f, s) => (.error (.input f), { l with scanner := s })
  | (.ok follower, s) =>
    if follower = .char '=' then (.ok pairing.paired, { l with scanner := s })
    else
      let l := { l with scanner := s.handBack follower }
      match pairing.single with
      | some token => (.ok token, l)
      | none => (.error (unpaired c follower start), l)

def ofChar (l : Lexer) (c : Char) (start : Position) : Except LexError Token × Lexer :=
  match Token.ofChar? c with
  | some token => (.ok token, l)
  | none =>
    match Pairing.ofChar? c with
    | some pairing => l.pair c pairing start
    | none => (.error (.illegalCharacter c start), l)

/-- The token that a lexeme begins; nothing at the end of input. -/
def ofLexeme (l : Lexer) (lexeme : Lexeme) (start : Position) :
    Except LexError (Option Token) × Lexer :=
  match lexeme with
  | .endOfInput => (.ok none, l)
  | .word text =>
    let (token, symbols) := l.symbols.resolve text
    (.ok (some token), { l with symbols := symbols })
  | .number text =>
    match Literal.value? text.toList with
    | some value => (.ok (some (.intConstant value)), l)
    | none => (.error (.numericOverflow text start), l)
  | .char c =>
    match l.ofChar c start with
    | (.ok token, l) => (.ok (some token), l)
    | (.error e, l) => (.error e, l)

def assemble (l : Lexer) : Except LexError (Option (Token × Position)) × Lexer :=
  match l.scanner.next with
  | (.error f, s) => (.error (.input f), { l with scanner := s })
  | (.ok lexeme, s) =>
    match { l with scanner := s }.ofLexeme lexeme s.start with
    | (.ok token, l) => (.ok (token.map (·, s.start)), l)
    | (.error e, l) => (.error e, l)

/-- Reads the next token; nothing at the end of input. -/
def read (l : Lexer) : Except LexError (Option Token) × Lexer :=
  match l.peeked with
  | some (token, start) => (.ok (some token), { l with peeked := none, position := start })
  | none =>
    match l.assemble with
    | (.ok (some (token, start)), l) => (.ok (some token), { l with position := start })
    | (.ok none, l) => (.ok none, l)
    | (.error e, l) => (.error e, l)

def peek (l : Lexer) : Except LexError (Option Token) × Lexer :=
  match l.peeked with
  | some (token, _) => (.ok (some token), l)
  | none =>
    match l.assemble with
    | (.ok next, l) => (.ok (next.map (·.1)), { l with peeked := next })
    | (.error e, l) => (.error e, l)

/-- Drops the token looked at and everything through the next line feed. -/
def flush (l : Lexer) : Except LexError Unit × Lexer :=
  match l.scanner.flush with
  | (.ok (), s) => (.ok (), { l with scanner := s, peeked := none })
  | (.error f, s) => (.error (.input f), { l with scanner := s, peeked := none })

end Lexer

end JamTokens
