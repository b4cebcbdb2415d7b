import JamTokens.Number.Binary64

/-!
# Numeric literals

A literal is a run of digits with at most one point.  Its value is read as a
binary64 number, and it is accepted as a constant if that number is an
integer of at most 31 bits.  A fraction too small for the format to see is
therefore rounded away before the question is asked.
-/

set_option autoImplicit false

namespace JamTokens

/-- The exact value `digits / 10 ^ places`. -/
structure Decimal where
  digits : Nat
  places : Nat
  deriving DecidableEq, Repr

namespace Decimal

def digitValue (c : Char) : Nat := c.toNat - '0'.toNat

def readDigits (text : List Char) : Nat := text.foldl (fun n c => 10 * n + digitValue c) 0

def read (text : List Char) : Decimal :=
  let whole := text.takeWhile (· != '.')
  let fraction := (text.dropWhile (· != '.')).drop 1
  ⟨readDigits (whole ++ fraction), fraction.length⟩

def toBinary64 (d : Decimal) : Binary64 := .nearest d.digits (Nat.pow 10 d.places)

end Decimal

namespace Literal

/-- The largest integer constant, which fills 31 bits. -/
def greatest : Nat := 2147483647

def value? (text : List Char) : Option Nat :=
  (Decimal.read text).toBinary64.toNat?.filter (· ≤ greatest)

end Literal

end JamTokens
