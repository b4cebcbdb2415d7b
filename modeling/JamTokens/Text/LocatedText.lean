/-!
# Texts that name a place

A message about a JSON text may end in the line and the column that it is
about.  The place is kept apart from the words before it; line zero stands
for no place.
-/

set_option autoImplicit false

namespace JamTokens

structure LocatedText where
  words : String
  line : Nat
  column : Nat
  deriving DecidableEq, Repr

namespace LocatedText

def ofWords (words : String) : LocatedText := ⟨words, 0, 0⟩

def after? (lead text : List Char) : Option (List Char) :=
  if lead.isPrefixOf text then some (text.drop lead.length) else none

/-- Splits a text around the last place where `mark` stands. -/
def splitLast? (mark : List Char) : List Char → Option (List Char × List Char)
  | [] => none
  | c :: rest =>
    match splitLast? mark rest with
    | some (before, behind) => some (c :: before, behind)
    | none => (after? mark (c :: rest)).map ([], ·)

/-- The least number that does not fit in 64 bits. -/
def numberBound : Nat := 18446744073709551616

/-- A number of at most 64 bits, and the text behind its digits. -/
def number? (text : List Char) : Option (Nat × List Char) :=
  let digits := text.takeWhile Char.isDigit
  let value := digits.foldl (fun n c => 10 * n + (c.toNat - '0'.toNat)) 0
  if digits.isEmpty || numberBound ≤ value then none else some (value, text.dropWhile Char.isDigit)

def place? (text : List Char) : Option LocatedText := do
  let (words, place) ← splitLast? " at line ".toList text
  let (line, rest) ← number? place
  let (column, rest) ← number? (← after? " column ".toList rest)
  if rest.isEmpty then some ⟨String.ofList words, line, column⟩ else none

def ofText (text : String) : LocatedText := (place? text.toList).getD (ofWords text)

def text (t : LocatedText) : String :=
  if t.line = 0 then t.words else s!"{t.words} at line {t.line} column {t.column}"

end LocatedText

end JamTokens
