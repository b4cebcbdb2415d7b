/-!
# Rounding to binary64

The nearest binary64 number of a non-negative quotient, computed exactly in
natural numbers.  A finite result is `significand * 2 ^ exponent`; a tie goes
to the even significand, and what is too large for the format is infinite.
-/

set_option autoImplicit false

namespace JamTokens

/-- The integer nearest to `num / den`, the even one of two. -/
def roundDiv (num den : Nat) : Nat :=
  let quotient := num / den
  let twice := 2 * (num % den)
  if twice < den then quotient
  else if den < twice then quotient + 1
  else quotient + quotient % 2

inductive Binary64
  | finite (significand : Nat) (exponent : Int)
  | infinite
  deriving DecidableEq, Repr

namespace Binary64

/-- The quotient `num / den` divided by `2 ^ exponent`, as numerator and denominator. -/
def scale (num den : Nat) (exponent : Int) : Nat × Nat :=
  if 0 ≤ exponent then (num, den * Nat.pow 2 exponent.toNat)
  else (num * Nat.pow 2 (-exponent).toNat, den)

/-- The exponent of the last place that the format keeps of `num / den`: the
leading bit is followed by 52 more, and no place is below `2 ^ -1074`. -/
def lastPlace (num den : Nat) : Int :=
  let guess : Int := (num.log2 : Int) - (den.log2 : Int)
  let (n, d) := scale num den guess
  let leading := if n < d then guess - 1 else guess
  max (leading - 52) (-1074)

def bound : Nat := Nat.pow 2 1024

def nearest (num den : Nat) : Binary64 :=
  let exponent := lastPlace num den
  let (n, d) := scale num den exponent
  let significand := roundDiv n d
  if bound ≤ significand * Nat.pow 2 exponent.toNat then infinite
  else finite significand exponent

def toNat? : Binary64 → Option Nat
  | finite significand exponent =>
    let unit := Nat.pow 2 (-exponent).toNat
    if significand % unit = 0 then some (significand / unit * Nat.pow 2 exponent.toNat) else none
  | infinite => none

end Binary64

end JamTokens
