import JamTokens.Source.Failure
import JamTokens.Text.Position

/-!
# Lexical errors

What can go wrong while a token is read.  Every error but a failure of the
input says where the offending lexeme starts.
-/

set_option autoImplicit false

namespace JamTokens

inductive LexError
  /-- A literal that is no 32 bit integer. -/
  | numericOverflow (literal : String) (position : Position)
  /-- A character that starts no token. -/
  | illegalCharacter (c : Char) (position : Position)
  /-- A character that is a token only together with an equals sign, and what came instead. -/
  | illegalOperatorSequence (sequence : String) (position : Position)
  | input (failure : Failure)
  deriving DecidableEq, Repr

namespace LexError

def kindName : LexError → String
  | numericOverflow .. => "NumericOverflow"
  | illegalCharacter .. => "IllegalCharacter"
  | illegalOperatorSequence .. => "IllegalOperatorSequence"
  | input _ => "Input"

def isInput : LexError → Bool
  | input _ => true
  | _ => false

def position? : LexError → Option Position
  | numericOverflow _ p => some p
  | illegalCharacter _ p => some p
  | illegalOperatorSequence _ p => some p
  | input _ => none

def message : LexError → String
  | numericOverflow literal p => s!"the number {literal} is not a 32 bit integer ({p.text})"
  | illegalCharacter c p => s!"`{c}' is not a legal token ({p.text})"
  | illegalOperatorSequence sequence p => s!"{sequence} is not a legal token ({p.text})"
  | input failure => s!"input error: {failure.message}"

end LexError

end JamTokens
