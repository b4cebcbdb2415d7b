import JamTokens.Number.Literal
import JamTokens.Proofs.Grammar
import Mathlib.Algebra.Group.Nat.Defs
import Mathlib.Data.List.TakeWhile

/-!
# Constants are read as they are written

A binary64 number has room for every integer of up to 53 bits.  So the digits
of an integer constant, read as a literal, are accepted and give the constant
back.
-/

set_option autoImplicit false

namespace JamTokens

open CharClass

/-! ## Integers in binary64 -/

theorem roundDiv_one (n : Nat) : roundDiv n 1 = n := by
  simp [roundDiv, Nat.mod_one]

namespace Binary64

theorem scale_one {n : Nat} {exponent : Int} (h : exponent ≤ 0) :
    scale n 1 exponent = (n * 2 ^ (-exponent).toNat, 1) := by
  unfold scale
  split
  · have zero : exponent = 0 := by omega
    subst zero
    simp
  · rfl

/-- The last place of an integer of up to 53 bits lies at the ones or behind them. -/
theorem lastPlace_one {n : Nat} (h : n < 2 ^ 53) :
    -53 ≤ lastPlace n 1 ∧ lastPlace n 1 ≤ 0 := by
  have bits : n.log2 ≤ 52 := by
    by_cases zero : n = 0
    · subst zero
      decide
    · exact Nat.lt_succ_iff.mp ((Nat.log2_lt zero).mpr h)
  have one : (Nat.log2 1 : Int) = 0 := by decide
  unfold lastPlace
  dsimp only
  rw [one]
  split <;> omega

theorem two_pow_le_bound {k : Nat} (h : k ≤ 1024) : 2 ^ k ≤ bound := by
  unfold bound
  -- The bound itself need not be computed.
  generalize 1024 = m at h ⊢
  exact Nat.pow_le_pow_right (by decide) h

theorem mul_two_pow_lt_bound {n k : Nat} (h : n < 2 ^ 53) (places : k ≤ 53) :
    n * 2 ^ k < bound := by
  calc n * 2 ^ k
      ≤ n * 2 ^ 53 := Nat.mul_le_mul_left n (Nat.pow_le_pow_right (by decide) places)
    _ < 2 ^ 53 * 2 ^ 53 := Nat.mul_lt_mul_of_pos_right h (by decide)
    _ = 2 ^ (53 + 53) := (Nat.pow_add 2 53 53).symm
    _ ≤ bound := two_pow_le_bound (by decide)

theorem toNat?_nearest_one {n : Nat} (h : n < 2 ^ 53) : (nearest n 1).toNat? = some n := by
  obtain ⟨low, high⟩ := lastPlace_one h
  unfold nearest
  dsimp only
  rw [scale_one high]
  dsimp only
  rw [roundDiv_one]
  generalize lastPlace n 1 = exponent at low high
  have whole : exponent.toNat = 0 := by omega
  have finite : ¬ bound ≤ n * 2 ^ (-exponent).toNat * Nat.pow 2 exponent.toNat := by
    rw [whole, Nat.not_le]
    calc n * 2 ^ (-exponent).toNat * Nat.pow 2 0
        = n * 2 ^ (-exponent).toNat := Nat.mul_one _
      _ < bound := mul_two_pow_lt_bound h (by omega)
  have none_left : n * 2 ^ (-exponent).toNat % Nat.pow 2 (-exponent).toNat = 0 :=
    Nat.mul_mod_left n _
  have quotient : n * 2 ^ (-exponent).toNat / Nat.pow 2 (-exponent).toNat = n :=
    Nat.mul_div_cancel n (Nat.two_pow_pos _)
  rw [if_neg finite, toNat?, whole, if_pos none_left, quotient]
  exact congrArg some (Nat.mul_one n)

end Binary64

/-! ## Digits -/

theorem isDigit_of_core {c : Char} (h : c.isDigit = true) : isDigit c = true := by
  simp only [Char.isDigit, Bool.and_eq_true, decide_eq_true_eq] at h
  exact isDigit_iff.mpr h

theorem isDigits_toString (n : Nat) :
    (toString n).toList ≠ [] ∧ Grammar.IsDigits (toString n).toList := by
  rw [Nat.toString_eq_repr, Nat.toList_repr]
  refine ⟨Nat.toDigits_ne_nil, ?_⟩
  intro c member
  exact isDigit_of_core (Nat.isDigit_of_mem_toDigits (by decide) (by decide) member)

theorem read_of_isDigits {digits : List Char} (h : Grammar.IsDigits digits) :
    Decimal.read digits = ⟨Decimal.readDigits digits, 0⟩ := by
  have point : ∀ c ∈ digits, (c != '.') = true := by
    intro c member
    exact bne_iff_ne.mpr fun same => Grammar.not_mem_of_isDigits h (same ▸ member)
  have whole : digits.takeWhile (· != '.') = digits := List.takeWhile_eq_self_iff.mpr point
  have fraction : digits.dropWhile (· != '.') = [] := List.dropWhile_eq_nil_iff.mpr point
  unfold Decimal.read
  rw [whole, fraction]
  simp

theorem readDigits_toString (n : Nat) : Decimal.readDigits (toString n).toList = n := by
  rw [Nat.toString_eq_repr, Nat.toList_repr]
  exact Nat.ofDigitChars_ten_toDigits

namespace Literal

theorem value?_toString {n : Nat} (h : n ≤ greatest) : value? (toString n).toList = some n := by
  have small : n < 2 ^ 53 := Nat.lt_of_le_of_lt h (by decide)
  unfold value?
  rw [read_of_isDigits (isDigits_toString n).2, readDigits_toString, Decimal.toBinary64]
  dsimp only
  rw [show Nat.pow 10 0 = 1 from rfl, Binary64.toNat?_nearest_one small]
  simp [h]

theorem le_greatest {text : List Char} {n : Nat} (h : value? text = some n) : n ≤ greatest := by
  have kept := (Option.filter_eq_some_iff.mp h).2
  simpa using kept

end Literal

end JamTokens
