import JamTokens.Proofs.Constants
import Mathlib.Algebra.Order.Floor.Semifield
import Mathlib.Data.Int.Log
import Mathlib.Data.Rat.Floor
import Mathlib.Tactic.FieldSimp
import Mathlib.Tactic.Linarith
import Mathlib.Tactic.NormNum
import Mathlib.Tactic.Positivity
import Mathlib.Tactic.Ring

/-!
# Which quotients round to an integer

A quotient is rounded to the small integers that lie within half a unit of the
last place that the format keeps of it.  Each of these integers has an even
significand, so a quotient halfway between it and its neighbour is rounded to
it as well.
-/

set_option autoImplicit false

namespace JamTokens

/-! ## Rounding to an integer -/

theorem abs_sub_le_half_iff {n d : Nat} (k : Nat) (proper : 0 < d) :
    |(n : ℚ) / d - k| ≤ 1 / 2 ↔ 2 * n ≤ (2 * k + 1) * d ∧ 2 * k * d ≤ 2 * n + d := by
  have positive : (0 : ℚ) < d := Nat.cast_pos.mpr proper
  rw [abs_sub_le_iff, sub_le_iff_le_add, sub_le_comm, div_le_iff₀ positive, le_div_iff₀ positive]
  constructor
  · rintro ⟨above, below⟩
    have above' : (2 * n : ℚ) ≤ (2 * k + 1) * d := by linarith
    have below' : (2 * k * d : ℚ) ≤ 2 * n + d := by linarith
    exact ⟨by exact_mod_cast above', by exact_mod_cast below'⟩
  · rintro ⟨above, below⟩
    have above' : (2 * n : ℚ) ≤ (2 * k + 1) * d := by exact_mod_cast above
    have below' : (2 * k * d : ℚ) ≤ 2 * n + d := by exact_mod_cast below
    exact ⟨by linarith, by linarith⟩

/-- An integer within half a unit is the whole part of the quotient or the next one. -/
theorem within_half_iff {d q r : Nat} (k : Nat) (less : r < d) :
    2 * (d * q + r) ≤ (2 * k + 1) * d ∧ 2 * k * d ≤ 2 * (d * q + r) + d ↔
      k = q ∧ 2 * r ≤ d ∨ k = q + 1 ∧ d ≤ 2 * r := by
  constructor
  · rintro ⟨above, below⟩
    have low : q ≤ k := by
      by_contra far
      have : (k + 1) * d ≤ d * q := by rw [Nat.mul_comm d]; exact Nat.mul_le_mul_right d (by omega)
      linarith
    have high : k ≤ q + 1 := by
      by_contra far
      have : d * (q + 2) ≤ k * d := by rw [Nat.mul_comm d]; exact Nat.mul_le_mul_right d (by omega)
      linarith
    obtain rfl | rfl : k = q ∨ k = q + 1 := by omega
    · exact .inl ⟨rfl, by linarith⟩
    · exact .inr ⟨rfl, by linarith⟩
  · rintro (⟨rfl, close⟩ | ⟨rfl, close⟩)
    · exact ⟨by linarith, by linarith⟩
    · exact ⟨by linarith, by linarith⟩

/-- An even integer is the nearest one up to half a unit away, since ties go to it. -/
theorem roundDiv_eq_iff {n d k : Nat} (proper : 0 < d) (even : k % 2 = 0) :
    roundDiv n d = k ↔ |(n : ℚ) / d - k| ≤ 1 / 2 := by
  have units : d * (n / d) + n % d = n := Nat.div_add_mod n d
  rw [abs_sub_le_half_iff k proper]
  conv_rhs => rw [← units]
  rw [within_half_iff k (Nat.mod_lt n proper)]
  unfold roundDiv
  dsimp only
  split
  · omega
  · split <;> omega

namespace Binary64

/-! ## Scaling -/

theorem scale_pos {den : Nat} (num : Nat) (exponent : Int) (proper : 0 < den) :
    0 < (scale num den exponent).2 := by
  unfold scale
  split
  · exact Nat.mul_pos proper (Nat.two_pow_pos _)
  · exact proper

theorem cast_two_pow_toNat {exponent : Int} (h : 0 ≤ exponent) :
    ((2 ^ exponent.toNat : Nat) : ℚ) = 2 ^ exponent := by
  conv_rhs => rw [← Int.toNat_of_nonneg h, zpow_natCast]
  exact Nat.cast_pow 2 _

theorem scale_quotient (num den : Nat) (exponent : Int) :
    ((scale num den exponent).1 : ℚ) / (scale num den exponent).2 = num / den / 2 ^ exponent := by
  unfold scale
  split
  · rename_i forward
    have power : ((Nat.pow 2 exponent.toNat : Nat) : ℚ) = 2 ^ exponent := cast_two_pow_toNat forward
    rw [Nat.cast_mul, power, div_div]
  · rename_i back
    have power : ((Nat.pow 2 (-exponent).toNat : Nat) : ℚ) = 2 ^ (-exponent) :=
      cast_two_pow_toNat (by omega)
    rw [Nat.cast_mul, power, zpow_neg]
    field_simp

theorem scale_lt_iff {den : Nat} (num : Nat) (exponent : Int) (proper : 0 < den) :
    (scale num den exponent).1 < (scale num den exponent).2 ↔ (num : ℚ) / den < 2 ^ exponent := by
  have positive : (0 : ℚ) < (scale num den exponent).2 := Nat.cast_pos.mpr (scale_pos num _ proper)
  have power : (0 : ℚ) < 2 ^ exponent := zpow_pos (by norm_num) exponent
  rw [← div_lt_one power, ← scale_quotient, div_lt_one positive, Nat.cast_lt]

/-! ## The last place -/

/-- The leading bits of the two numbers tell that of their quotient up to one. -/
theorem quotient_bounds {num den : Nat} (nonzero : 0 < num) (proper : 0 < den) :
    (2 : ℚ) ^ ((num.log2 : Int) - den.log2 - 1) < num / den ∧
      (num : ℚ) / den < 2 ^ ((num.log2 : Int) - den.log2 + 1) := by
  have low (n : Nat) (h : 0 < n) : (2 : ℚ) ^ n.log2 ≤ n := by
    exact_mod_cast Nat.log2_self_le (Nat.ne_of_gt h)
  have high (n : Nat) : (n : ℚ) < 2 ^ (n.log2 + 1) := by exact_mod_cast Nat.lt_log2_self
  have positive : (0 : ℚ) < den := Nat.cast_pos.mpr proper
  have two : (2 : ℚ) ≠ 0 := two_ne_zero
  constructor
  · rw [sub_sub, ← Nat.cast_succ, zpow_sub₀ two, zpow_natCast, zpow_natCast,
      div_lt_div_iff₀ (by positivity) positive]
    calc (2 : ℚ) ^ num.log2 * den ≤ num * den := by gcongr; exact low num nonzero
      _ < num * 2 ^ (den.log2 + 1) := by gcongr; exact high den
  · rw [sub_add_eq_add_sub, ← Nat.cast_succ, zpow_sub₀ two, zpow_natCast, zpow_natCast,
      div_lt_div_iff₀ positive (by positivity)]
    calc (num : ℚ) * 2 ^ den.log2 ≤ num * den := by gcongr; exact low den proper
      _ < 2 ^ (num.log2 + 1) * den := by gcongr; exact high num

theorem log_eq {q : ℚ} {place : Int} (low : 2 ^ place ≤ q) (high : q < 2 ^ (place + 1)) :
    Int.log 2 q = place := by
  have positive : 0 < q := (zpow_pos (by norm_num) place).trans_le low
  have low' : place ≤ Int.log 2 q := (Int.zpow_le_iff_le_log (by decide) positive).mp low
  have high' : Int.log 2 q < place + 1 := (Int.lt_zpow_iff_log_lt (by decide) positive).mp high
  omega

theorem lastPlace_eq {num den : Nat} (nonzero : 0 < num) (proper : 0 < den) :
    lastPlace num den = max (Int.log 2 ((num : ℚ) / den) - 52) (-1074) := by
  obtain ⟨low, high⟩ := quotient_bounds nonzero proper
  unfold lastPlace
  dsimp only
  congr 2
  split
  · rename_i below
    rw [scale_lt_iff num _ proper] at below
    exact (log_eq low.le (by rwa [sub_add_cancel])).symm
  · rename_i reaches
    rw [scale_lt_iff num _ proper, not_lt] at reaches
    exact (log_eq reaches high).symm

/-! ## Rounding to a small integer -/

/-- Half a unit of the last place that the format keeps of a number. -/
def halfPlace (q : ℚ) : ℚ := 2 ^ (max (Int.log 2 q - 52) (-1074) - 1)

theorem toNat?_finite_eq_some_iff {significand n : Nat} {exponent : Int} (fine : exponent < 0) :
    (finite significand exponent).toNat? = some n ↔ significand = n * 2 ^ (-exponent).toNat := by
  have whole : exponent.toNat = 0 := Int.toNat_of_nonpos fine.le
  have positive : 0 < Nat.pow 2 (-exponent).toNat := Nat.two_pow_pos _
  unfold toNat?
  dsimp only
  rw [whole, show Nat.pow 2 0 = 1 from rfl, Nat.mul_one]
  constructor
  · intro h
    split at h
    · rename_i divides
      cases h
      exact (Nat.div_mul_cancel (Nat.dvd_of_mod_eq_zero divides)).symm
    · cases h
  · rintro rfl
    have divides : n * 2 ^ (-exponent).toNat % Nat.pow 2 (-exponent).toNat = 0 :=
      Nat.mul_mod_left n _
    rw [if_pos divides]
    exact congrArg some (Nat.mul_div_cancel n positive)

/-! ### The significand -/

theorem quotient_lt_lastPlace {num den : Nat} (nonzero : 0 < num) (proper : 0 < den) :
    (num : ℚ) / den / 2 ^ lastPlace num den < 2 ^ 53 := by
  have unit : (0 : ℚ) < 2 ^ lastPlace num den := zpow_pos (by norm_num) _
  rw [div_lt_iff₀ unit, ← zpow_natCast (2 : ℚ) 53, ← zpow_add₀ two_ne_zero]
  refine (Int.lt_zpow_succ_log_self (b := 2) (by decide) _).trans_le ?_
  refine zpow_le_zpow_right₀ (by norm_num) ?_
  rw [lastPlace_eq nonzero proper]
  omega

theorem le_quotient_lastPlace {num den : Nat} (nonzero : 0 < num) (proper : 0 < den)
    (normal : -1074 < lastPlace num den) :
    2 ^ 52 ≤ (num : ℚ) / den / 2 ^ lastPlace num den := by
  have positive : (0 : ℚ) < num / den := div_pos (Nat.cast_pos.mpr nonzero) (Nat.cast_pos.mpr proper)
  have unit : (0 : ℚ) < 2 ^ lastPlace num den := zpow_pos (by norm_num) _
  rw [le_div_iff₀ unit, ← zpow_natCast (2 : ℚ) 52, ← zpow_add₀ two_ne_zero]
  refine le_trans ?_ (Int.zpow_log_le_self (b := 2) (by decide) positive)
  refine zpow_le_zpow_right₀ (by norm_num) ?_
  rw [lastPlace_eq nonzero proper] at normal ⊢
  omega

theorem div_le_roundDiv (n d : Nat) : n / d ≤ roundDiv n d := by
  unfold roundDiv
  dsimp only
  split
  · exact Nat.le_refl _
  · split <;> omega

theorem roundDiv_le (n d : Nat) : roundDiv n d ≤ n / d + 1 := by
  unfold roundDiv
  dsimp only
  split
  · omega
  · split <;> omega

def significand (num den : Nat) : Nat :=
  roundDiv (scale num den (lastPlace num den)).1 (scale num den (lastPlace num den)).2

theorem significand_le {num den : Nat} (nonzero : 0 < num) (proper : 0 < den) :
    significand num den ≤ 2 ^ 53 := by
  have high := quotient_lt_lastPlace nonzero proper
  have positive := scale_pos num (lastPlace num den) proper
  rw [← scale_quotient, div_lt_iff₀ (Nat.cast_pos.mpr positive)] at high
  have high' : (scale num den (lastPlace num den)).1 / (scale num den (lastPlace num den)).2 <
      2 ^ 53 := by
    rw [Nat.div_lt_iff_lt_mul positive]
    exact_mod_cast high
  exact (roundDiv_le _ _).trans high'

theorem le_significand {num den : Nat} (nonzero : 0 < num) (proper : 0 < den)
    (normal : -1074 < lastPlace num den) : 2 ^ 52 ≤ significand num den := by
  have low := le_quotient_lastPlace nonzero proper normal
  have positive := scale_pos num (lastPlace num den) proper
  rw [← scale_quotient, le_div_iff₀ (Nat.cast_pos.mpr positive)] at low
  refine le_trans ?_ (div_le_roundDiv _ _)
  rw [Nat.le_div_iff_mul_le positive]
  exact_mod_cast low

/-! ### Small integers -/

theorem toNat?_nearest_of_fine {num den : Nat} (n : Nat) (nonzero : 0 < num) (proper : 0 < den)
    (fine : lastPlace num den < 0) :
    (nearest num den).toNat? = some n ↔
      |(num : ℚ) / den - n| ≤ 2 ^ (lastPlace num den - 1) := by
  have small := significand_le nonzero proper
  unfold significand at small
  unfold nearest
  dsimp only
  generalize lastPlace num den = exponent at fine small ⊢
  have unit : (0 : ℚ) < 2 ^ exponent := zpow_pos (by norm_num) exponent
  have power : ((2 ^ (-exponent).toNat : Nat) : ℚ) = (2 ^ exponent)⁻¹ := by
    rw [cast_two_pow_toNat (by omega), zpow_neg]
  -- counted in units behind the ones, every integer is even
  have even : n * 2 ^ (-exponent).toNat % 2 = 0 := by
    obtain ⟨k, places⟩ : ∃ k, (-exponent).toNat = k + 1 := ⟨(-exponent).toNat - 1, by omega⟩
    rw [places, Nat.pow_succ, ← Nat.mul_assoc]
    exact Nat.mul_mod_left _ 2
  have close : roundDiv (scale num den exponent).1 (scale num den exponent).2 =
      n * 2 ^ (-exponent).toNat ↔ |(num : ℚ) / den - n| ≤ 2 ^ (exponent - 1) := by
    rw [roundDiv_eq_iff (scale_pos num exponent proper) even, scale_quotient, Nat.cast_mul, power,
      ← div_eq_mul_inv, ← sub_div, abs_div, abs_of_pos unit, div_le_iff₀ unit,
      zpow_sub_one₀ two_ne_zero]
    ring_nf
  rw [← close]
  generalize roundDiv (scale num den exponent).1 (scale num den exponent).2 = significand at small ⊢
  have finite : ¬ bound ≤ significand * Nat.pow 2 exponent.toNat := by
    rw [Int.toNat_of_nonpos fine.le, show Nat.pow 2 0 = 1 from rfl, Nat.mul_one, Nat.not_le]
    calc significand ≤ 2 ^ 53 := small
      _ < 2 ^ 54 := by decide
      _ ≤ bound := two_pow_le_bound (by decide)
  rw [if_neg finite]
  exact toNat?_finite_eq_some_iff fine

theorem toNat?_nearest_of_coarse {num den n : Nat} (nonzero : 0 < num) (proper : 0 < den)
    (small : n < 2 ^ 52) (coarse : 0 ≤ lastPlace num den) :
    (nearest num den).toNat? ≠ some n := by
  have large := le_significand nonzero proper (by omega)
  unfold significand at large
  unfold nearest
  dsimp only
  generalize lastPlace num den = exponent at coarse large ⊢
  generalize roundDiv (scale num den exponent).1 (scale num den exponent).2 = significand at large ⊢
  split
  · exact fun h => nomatch h
  · intro h
    have places : (-exponent).toNat = 0 := Int.toNat_of_nonpos (by omega)
    simp only [toNat?, places, show Nat.pow 2 0 = 1 from rfl, Nat.mod_one, if_true, Nat.div_one,
      Option.some.injEq] at h
    have : significand ≤ n := h ▸ Nat.le_mul_of_pos_right significand (Nat.two_pow_pos _)
    omega

/-- A quotient whose last place is the ones, or before them, is far from all small integers. -/
theorem far_of_coarse {num den n : Nat} (nonzero : 0 < num) (proper : 0 < den) (small : n < 2 ^ 51)
    (coarse : 0 ≤ lastPlace num den) : 2 ^ (lastPlace num den - 1) < |(num : ℚ) / den - n| := by
  have low := le_quotient_lastPlace nonzero proper (by omega)
  have unit : (0 : ℚ) < 2 ^ lastPlace num den := zpow_pos (by norm_num) _
  have one : (1 : ℚ) ≤ 2 ^ lastPlace num den := one_le_zpow₀ (by norm_num) coarse
  have small' : (n : ℚ) < 2 ^ 51 := by exact_mod_cast small
  rw [le_div_iff₀ unit] at low
  rw [zpow_sub_one₀ two_ne_zero]
  generalize (2 : ℚ) ^ lastPlace num den = place at low one ⊢
  calc place * 2⁻¹ < 2 ^ 52 * place - 2 ^ 51 := by linarith
    _ < num / den - n := by linarith
    _ ≤ |(num : ℚ) / den - n| := le_abs_self _

theorem toNat?_nearest_zero {den : Nat} (proper : 0 < den) : (nearest 0 den).toNat? = some 0 := by
  have nothing (exponent : Int) : (scale 0 den exponent).1 = 0 := by
    unfold scale
    split
    · rfl
    · exact Nat.zero_mul _
  have rounded (d : Nat) (h : 0 < d) : roundDiv 0 d = 0 := by
    simp [roundDiv, h]
  unfold nearest
  dsimp only
  rw [nothing, rounded _ (scale_pos 0 _ proper), Nat.zero_mul, if_neg]
  · simp [toNat?]
  · exact Nat.not_le.mpr (lt_of_lt_of_le (Nat.two_pow_pos 0) (two_pow_le_bound (Nat.zero_le _)))

/-- A small integer is what a quotient is rounded to exactly if it lies within half a unit of the
last place. -/
theorem toNat?_nearest_eq_some_iff {num den n : Nat} (proper : 0 < den) (small : n < 2 ^ 51) :
    (nearest num den).toNat? = some n ↔ |(num : ℚ) / den - n| ≤ halfPlace (num / den) := by
  rcases Nat.eq_zero_or_pos num with rfl | nonzero
  · rw [toNat?_nearest_zero proper, Option.some.injEq, Nat.cast_zero, zero_div, zero_sub, abs_neg,
      Nat.abs_cast, halfPlace, Int.log_zero_right]
    constructor
    · rintro rfl
      exact le_of_lt (by rw [Nat.cast_zero]; exact zpow_pos (by norm_num) _)
    · intro close
      by_contra other
      have one : (1 : ℚ) ≤ n := by exact_mod_cast Nat.one_le_iff_ne_zero.mpr (Ne.symm other)
      have tiny : (2 : ℚ) ^ (max ((0 : Int) - 52) (-1074) - 1) < 1 := by norm_num
      linarith
  · rw [halfPlace, ← lastPlace_eq nonzero proper]
    rcases lt_or_ge (lastPlace num den) 0 with fine | coarse
    · exact toNat?_nearest_of_fine n nonzero proper fine
    · have far := far_of_coarse nonzero proper small coarse
      have other := toNat?_nearest_of_coarse (n := n) nonzero proper (by omega) coarse
      exact iff_of_false other (not_le.mpr far)

end Binary64

end JamTokens
