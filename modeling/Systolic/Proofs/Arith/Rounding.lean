import Mathlib.Algebra.Order.Field.Power
import Mathlib.Algebra.Order.Field.Rat
import Mathlib.Tactic.Linarith
import Mathlib.Tactic.Positivity
import Mathlib.Tactic.Ring
import Systolic.Arith.Binary64

/-
  This file bounds the error of rounding. A whole number nearest
  to a quotient is off by at most one half. A quotient with 53
  significant bits is scaled so that its whole part has them all,
  so it is off by at most one part in `2 ^ 53`. A percentage is
  rounded four times, which together is too little to lift a part
  over its whole.

  Key definitions include:
    * `Fraction.value`

  Key theorems include:
    * `divRoundEven_bounds`
    * `Fraction.le_value_scale_exponent53`
    * `Fraction.value_round53`
    * `percentTenths_le`
-/

namespace Systolic

------------------------------------------------------------
-- Whole Numbers
------------------------------------------------------------

/- The nearest whole number is off by at most one half. -/
theorem divRoundEven_bounds
    (num : Nat)
    {den : Nat}
    (hDen : 0 < den) :
    2 * num ≤ 2 * (divRoundEven num den * den) + den ∧
      2 * (divRoundEven num den * den) ≤ 2 * num + den := by
  have hSplit : den * (num / den) + num % den = num :=
    Nat.div_add_mod num den
  have hRest : num % den < den := Nat.mod_lt num hDen
  have hDown : num / den * den = den * (num / den) :=
    Nat.mul_comm _ _
  have hUp : (num / den + 1) * den = den * (num / den) + den := by
    rw [Nat.add_mul, Nat.one_mul, hDown]
  unfold divRoundEven
  dsimp only
  split
  case isTrue => omega
  case isFalse =>
    split
    case isTrue => omega
    case isFalse => split <;> omega

------------------------------------------------------------
-- Quotients
------------------------------------------------------------

namespace Fraction

variable {f : Fraction}

/- The rational number that a quotient stands for. -/
def value (f : Fraction) : ℚ :=
  f.num / f.den

@[simp] theorem value_scale
    (f : Fraction)
    (e : Int) :
    (f.scale e).value = f.value * 2 ^ e := by
  unfold scale value
  split
  case isTrue hNonneg =>
    have hPower : (2 : ℚ) ^ e = 2 ^ e.toNat := by
      rw [← zpow_natCast, Int.toNat_of_nonneg hNonneg]
    rw [hPower]
    push_cast
    ring
  case isFalse hNeg =>
    have hPower : (2 : ℚ) ^ e = (2 ^ (-e).toNat)⁻¹ := by
      rw [← zpow_natCast, Int.toNat_of_nonneg (by omega), zpow_neg,
        inv_inv]
    rw [hPower]
    push_cast
    rw [div_mul_eq_div_mul_one_div, one_div]

theorem den_scale_pos
    (hDen : 0 < f.den)
    (e : Int) :
    0 < (f.scale e).den := by
  unfold scale
  split
  case isTrue => exact hDen
  case isFalse => exact Nat.mul_pos hDen (Nat.two_pow_pos _)

/- A quotient lies between those of the powers around its parts. -/
theorem le_value_log2
    (hNum : f.num ≠ 0)
    (hDen : 0 < f.den) :
    (2 : ℚ) ^ ((Nat.log2 f.num : Int) - Nat.log2 f.den - 1) ≤
      f.value := by
  have hLow : (2 : ℚ) ^ Nat.log2 f.num ≤ f.num := by
    exact_mod_cast Nat.log2_self_le hNum
  have hHigh : (f.den : ℚ) ≤ 2 ^ (Nat.log2 f.den + 1) := by
    exact_mod_cast Nat.le_of_lt Nat.lt_log2_self
  have hPos : (0 : ℚ) < f.den := by exact_mod_cast hDen
  calc
    (2 : ℚ) ^ ((Nat.log2 f.num : Int) - Nat.log2 f.den - 1)
      = 2 ^ Nat.log2 f.num / 2 ^ (Nat.log2 f.den + 1) := by
        rw [← zpow_natCast, ← zpow_natCast, ← zpow_sub₀ (by norm_num)]
        congr 1
        push_cast
        ring
    _ ≤ f.num / f.den := by gcongr

/- The whole part of a scaled quotient has 53 bits. -/
theorem le_value_scale_exponent53
    (hNum : f.num ≠ 0)
    (hDen : 0 < f.den) :
    2 ^ 52 ≤ (f.scale f.exponent53).value := by
  have hValue := le_value_log2 hNum hDen
  unfold exponent53
  dsimp only
  generalize hFirst :
    (52 - ((Nat.log2 f.num : Int) - (Nat.log2 f.den : Int)) : Int) = e
  have hLeast : (2 : ℚ) ^ 51 ≤ f.value * 2 ^ e := by
    calc
      (2 : ℚ) ^ 51
        = 2 ^ ((Nat.log2 f.num : Int) - Nat.log2 f.den - 1) * 2 ^ e := by
          rw [← zpow_add₀ (by norm_num), ← zpow_natCast]
          congr 1
          omega
      _ ≤ f.value * 2 ^ e := by gcongr
  split
  case isTrue =>
    rw [value_scale, zpow_add₀ (by norm_num), zpow_one]
    linarith
  case isFalse hEnough =>
    have hPos : (0 : ℚ) < (f.scale e).den := by
      exact_mod_cast den_scale_pos hDen e
    have hCast :
        (((f.scale e).den * 2 ^ 52 : Nat) : ℚ) ≤ (f.scale e).num :=
      Nat.cast_le.mpr (Nat.le_of_not_lt hEnough)
    rw [Nat.cast_mul, Nat.cast_pow, Nat.cast_ofNat] at hCast
    unfold value
    rw [le_div_iff₀ hPos, mul_comm]
    exact hCast

theorem value_whole (n : Nat) :
    Fraction.value { num := n, den := 1 } = (n : ℚ) := by
  simp [value]

theorem divRoundEven_near
    (hDen : 0 < f.den) :
    f.value - 1 / 2 ≤ divRoundEven f.num f.den ∧
      divRoundEven f.num f.den ≤ f.value + 1 / 2 := by
  have hPos : (0 : ℚ) < f.den := Nat.cast_pos.mpr hDen
  rcases divRoundEven_bounds f.num hDen with ⟨hLow, hHigh⟩
  generalize divRoundEven f.num f.den = k at *
  unfold value
  constructor
  · have hCast : 2 * (f.num : ℚ) ≤ 2 * (k * f.den) + f.den := by
      exact_mod_cast hLow
    rw [sub_le_iff_le_add, div_le_iff₀ hPos]
    linarith
  · have hCast : 2 * ((k : ℚ) * f.den) ≤ 2 * f.num + f.den := by
      exact_mod_cast hHigh
    rw [← sub_le_iff_le_add, le_div_iff₀ hPos]
    linarith

theorem round53_of_ne_zero
    (hNum : f.num ≠ 0) :
    f.round53 =
      Fraction.scale
        { num :=
            divRoundEven (f.scale f.exponent53).num
              (f.scale f.exponent53).den
          den := 1 }
        (-f.exponent53) := by
  unfold round53
  rw [if_neg hNum]

theorem den_round53_pos
    (f : Fraction) :
    0 < f.round53.den := by
  by_cases hNum : f.num = 0
  · unfold round53
    rw [if_pos hNum]
    exact Nat.one_pos
  · rw [round53_of_ne_zero hNum]
    exact den_scale_pos Nat.one_pos _

/- Rounding to 53 bits is off by at most one part in `2 ^ 53`. -/
theorem value_round53
    (hDen : 0 < f.den) :
    f.value - f.value / 2 ^ 53 ≤ f.round53.value ∧
      f.round53.value ≤ f.value + f.value / 2 ^ 53 := by
  by_cases hNum : f.num = 0
  · unfold round53
    simp [value, hNum]
  · rw [round53_of_ne_zero hNum, value_scale, value_whole]
    have hLarge := le_value_scale_exponent53 hNum hDen
    have hNear := divRoundEven_near (den_scale_pos hDen f.exponent53)
    generalize f.exponent53 = e at *
    generalize divRoundEven (f.scale e).num (f.scale e).den = k at *
    -- One half is at most the allowed part of a value of 53 bits.
    have hHalf : (1 : ℚ) / 2 ≤ (f.scale e).value / 2 ^ 53 := by
      rw [le_div_iff₀ (by positivity)]
      linarith
    have hBack : (0 : ℚ) ≤ 2 ^ (-e) := by positivity
    have hUnscaled : f.value = (f.scale e).value * 2 ^ (-e) := by
      rw [value_scale, mul_assoc, ← zpow_add₀ (by norm_num)]
      simp
    generalize (f.scale e).value = x at *
    rw [hUnscaled]
    constructor
    · calc
        x * 2 ^ (-e) - x * 2 ^ (-e) / 2 ^ 53
          = (x - x / 2 ^ 53) * 2 ^ (-e) := by ring
        _ ≤ (k : ℚ) * 2 ^ (-e) :=
          mul_le_mul_of_nonneg_right (by linarith) hBack
    · calc
        (k : ℚ) * 2 ^ (-e)
          ≤ (x + x / 2 ^ 53) * 2 ^ (-e) :=
            mul_le_mul_of_nonneg_right (by linarith) hBack
        _ = x * 2 ^ (-e) + x * 2 ^ (-e) / 2 ^ 53 := by ring

end Fraction

------------------------------------------------------------
-- Percentages
------------------------------------------------------------

theorem value_nat53 (n : Nat) :
    n - (n : ℚ) / 2 ^ 53 ≤ (nat53 n).value ∧
      (nat53 n).value ≤ n + (n : ℚ) / 2 ^ 53 := by
  have hRound :=
    Fraction.value_round53 (f := { num := n, den := 1 }) Nat.one_pos
  rw [Fraction.value_whole] at hRound
  exact hRound

/- The quotient that a percentage is read off. -/
theorem value_percent_le
    {part whole : Nat}
    (hPart : part ≤ whole)
    (hWhole : whole ≠ 0)
    {scaled ratio : Fraction}
    (hScaled :
      scaled =
        Fraction.round53
          { num := (nat53 part).num * 100, den := (nat53 part).den })
    (hRatio :
      ratio =
        Fraction.round53
          { num := scaled.num * (nat53 whole).den
            den := scaled.den * (nat53 whole).num }) :
    ratio.value ≤ 100 + 1 / 25 := by
  have hPartCast : (part : ℚ) ≤ whole := Nat.cast_le.mpr hPart
  have hWholePos : (0 : ℚ) < whole :=
    Nat.cast_pos.mpr (Nat.pos_of_ne_zero hWhole)
  have hPartValue := (value_nat53 part).2
  have hWholeValue := (value_nat53 whole).1
  have hPartDen : 0 < (nat53 part).den := Fraction.den_round53_pos _
  have hWholeDen : 0 < (nat53 whole).den := Fraction.den_round53_pos _
  generalize nat53 part = p at *
  generalize nat53 whole = w at *
  have hHundred :
      Fraction.value { num := p.num * 100, den := p.den } =
        p.value * 100 := by
    simp only [Fraction.value]
    push_cast
    ring
  have hScaledValue :=
    (Fraction.value_round53 (f := { num := p.num * 100, den := p.den })
      hPartDen).2
  rw [← hScaled, hHundred] at hScaledValue
  have hScaledDen : 0 < scaled.den := hScaled ▸ Fraction.den_round53_pos _
  have hWPos : 0 < w.value := by linarith
  have hNum : 0 < w.num := by
    apply Nat.pos_of_ne_zero
    intro hZero
    simp [Fraction.value, hZero] at hWPos
  have hQuotient :
      Fraction.value
          { num := scaled.num * w.den, den := scaled.den * w.num } =
        scaled.value / w.value := by
    simp only [Fraction.value]
    push_cast
    rw [div_div_div_eq]
  have hRatioValue :=
    (Fraction.value_round53
      (f := { num := scaled.num * w.den, den := scaled.den * w.num })
      (Nat.mul_pos hScaledDen hNum)).2
  rw [← hRatio, hQuotient] at hRatioValue
  have hScaledWhole : scaled.value / w.value ≤ 100 + 1 / 50 := by
    rw [div_le_iff₀ hWPos]
    linarith
  linarith

/- A part of a whole is printed as at most one hundred percent. -/
theorem percentTenths_le
    {part whole : Nat}
    (hPart : part ≤ whole) :
    percentTenths part whole ≤ 1000 := by
  unfold percentTenths
  split
  case isTrue => exact Nat.zero_le _
  case isFalse hWhole =>
    have hValue := value_percent_le hPart hWhole rfl rfl
    dsimp only
    generalize hRatio :
      Fraction.round53
        { num :=
            (Fraction.round53
              { num := (nat53 part).num * 100
                den := (nat53 part).den }).num * (nat53 whole).den
          den :=
            (Fraction.round53
              { num := (nat53 part).num * 100
                den := (nat53 part).den }).den * (nat53 whole).num } =
      ratio at *
    have hDen : 0 < ratio.den := hRatio ▸ Fraction.den_round53_pos _
    have hTenths :
        Fraction.value { num := ratio.num * 10, den := ratio.den } =
          ratio.value * 10 := by
      simp only [Fraction.value]
      push_cast
      ring
    have hNear :=
      (Fraction.divRoundEven_near
        (f := { num := ratio.num * 10, den := ratio.den }) hDen).2
    rw [hTenths] at hNear
    have hLt : (divRoundEven (ratio.num * 10) ratio.den : ℚ) < 1001 := by
      linarith
    exact Nat.lt_succ_iff.mp (by exact_mod_cast hLt)

end Systolic
