import JamTokens.Lexer.Error
import JamTokens.Text.LocatedText

/-!
# Errors of a run

Why a run of the program does not succeed.
-/

set_option autoImplicit false

namespace JamTokens

inductive ConfigError
  | missing (path : String)
  | malformed (reason : String)
  | other (text : String)
  deriving DecidableEq, Repr

def ConfigError.message : ConfigError → String
  | missing path => s!"Configuration file not found: {path}"
  | malformed reason => s!"Failed to parse configuration: {reason}"
  | other text => text

inductive RunError
  | config (cause : ConfigError)
  /-- The error that ended the reading of tokens. -/
  | lex (cause : LexError)
  | io (cause : Failure)
  /-- A failure while a JSON object was being written. -/
  | json (cause : LocatedText)
  /-- The input was read to its end, but errors were reported on the way. -/
  | recovered (count : Nat)
  deriving DecidableEq, Repr

namespace RunError

def name : RunError → String
  | config _ => "Config"
  | lex _ => "Lex"
  | io _ => "Io"
  | json _ => "Json"
  | recovered _ => "Recovered"

def message : RunError → String
  | config cause => s!"Configuration error: {cause.message}"
  | lex cause => s!"Lexical error: {cause.message}"
  | io cause => s!"IO error: {cause.message}"
  | json cause => s!"JSON error: {cause.text}"
  | recovered count => s!"{count} lexical error(s) reported"

end RunError

end JamTokens
