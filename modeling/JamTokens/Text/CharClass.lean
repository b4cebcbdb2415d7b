/-!
# Character classes

The four classes that decide where a lexeme starts and ends.  All of them are
ASCII classes: a character above U+007F is in none of them, so a letter of
another script is never part of a word and a no-break space is not blank.
-/

set_option autoImplicit false

namespace JamTokens.CharClass

/-- The space and every control character below it separate lexemes. -/
def isBlank (c : Char) : Bool := c ≤ ' '

def isDigit (c : Char) : Bool := '0' ≤ c && c ≤ '9'

def isLetter (c : Char) : Bool := ('a' ≤ c && c ≤ 'z') || ('A' ≤ c && c ≤ 'Z')

/-- A word starts with a letter, an underscore or a question mark. -/
def isWordStart (c : Char) : Bool := isLetter c || c == '_' || c == '?'

/-- Inside a word, digits are allowed as well. -/
def isWordChar (c : Char) : Bool := isWordStart c || isDigit c

theorem isWordChar_of_isWordStart {c : Char} (h : isWordStart c = true) : isWordChar c = true := by
  simp [isWordChar, h]

end JamTokens.CharClass
