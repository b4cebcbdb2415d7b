import JamTokens.Text.CharClass

/-!
# Lexemes

The raw pieces that a text is cut into: words, numbers and single
characters.  A word is a run of word characters that does not start with a
digit.  A number is a run of digits with at most one point among them.
-/

set_option autoImplicit false

namespace JamTokens

inductive Lexeme
  | word (text : String)
  | number (text : String)
  | char (c : Char)
  | endOfInput
  deriving DecidableEq, Repr

namespace Lexeme

def text : Lexeme → String
  | word s => s
  | number s => s
  | char c => String.singleton c
  | endOfInput => "end of input"

def wordStep (_ : Unit) (c : Char) : Option Unit :=
  if CharClass.isWordChar c then some () else none

/-- A number goes on with digits, and with a point as long as it has none. -/
def numberStep (pointSeen : Bool) (c : Char) : Option Bool :=
  if CharClass.isDigit c then some pointSeen
  else if c = '.' && !pointSeen then some true
  else none

end Lexeme

end JamTokens
