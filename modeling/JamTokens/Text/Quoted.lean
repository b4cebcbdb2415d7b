/-!
# Quoted texts

Two ways of writing a text between quotes.  `json` is the string of the JSON
format: quotes, backslashes and the characters below the space are escaped,
all others stand for themselves.  `inspect` is the form in which values are
shown to a programmer: every control character is escaped, and of the quotes
only the one that encloses the text.
-/

set_option autoImplicit false

namespace JamTokens.Quoted

def hexDigits (n : Nat) : List Char := Nat.toDigits 16 n

/-- The escapes of one letter that JSON has. -/
def jsonLetter? : Char → Option Char
  | '"' => some '"'
  | '\\' => some '\\'
  | '\x08' => some 'b'
  | '\x0c' => some 'f'
  | '\n' => some 'n'
  | '\r' => some 'r'
  | '\t' => some 't'
  | _ => none

def jsonChar (c : Char) : List Char :=
  match jsonLetter? c with
  | some letter => ['\\', letter]
  | none =>
    if c < ' ' then
      ['\\', 'u', '0', '0', Nat.digitChar (c.toNat / 16), Nat.digitChar (c.toNat % 16)]
    else [c]

def json (s : String) : String := String.ofList ('"' :: s.toList.flatMap jsonChar ++ ['"'])

/-- A character inside an inspected text that the given quote encloses. -/
def inspectChar (quote c : Char) : List Char :=
  if c = quote || c = '\\' then ['\\', c]
  else if c = '\n' then ['\\', 'n']
  else if c = '\r' then ['\\', 'r']
  else if c = '\t' then ['\\', 't']
  else if c.toNat = 0 then ['\\', '0']
  else if c < ' ' || c = '\x7f' then ['\\', 'u', '\x7b'] ++ hexDigits c.toNat ++ ['\x7d']
  else [c]

def inspect (s : String) : String :=
  String.ofList ('"' :: s.toList.flatMap (inspectChar '"') ++ ['"'])

def inspectOne (c : Char) : String :=
  let quote := Char.ofNat 39
  String.ofList (quote :: inspectChar quote c ++ [quote])

end JamTokens.Quoted
