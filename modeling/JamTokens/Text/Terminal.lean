import JamTokens.Text.Quoted

/-!
# Texts for a terminal

A text that comes from an input may hold characters that a terminal obeys.
`shown` writes them out, so that the text can be displayed safely; all other
characters stand for themselves.
-/

set_option autoImplicit false

namespace JamTokens.Terminal

/-- The bell, the backspace, the form feed, the escape and the delete character. -/
def isCommand (c : Char) : Bool :=
  c = '\x07' || c = '\x08' || c = '\x0c' || c = '\x1b' || c = '\x7f'

def isHighControl (c : Char) : Bool := 0x80 ≤ c.toNat && c.toNat ≤ 0x9f

def shownChar (c : Char) : List Char :=
  if isCommand c then
    ['\\', 'x', Nat.digitChar (c.toNat / 16), Nat.digitChar (c.toNat % 16)]
  else if isHighControl c then ['\\', 'u', '\x7b'] ++ Quoted.hexDigits c.toNat ++ ['\x7d']
  else [c]

def shown (s : String) : String := String.ofList (s.toList.flatMap shownChar)

end JamTokens.Terminal
