import Mathlib

/-! # Rounding to double precision

Doubles have 53 significant bits, and the results of their operations are the exact ones rounded to the
nearest double, ties to even. The exponents of the values here stay far inside their range, so overflow
and subnormal numbers are left out. -/

namespace Double

/-- The nearest integer, ties to even. -/
def halfEven (q : ℚ) : ℤ :=
  if q - ⌊q⌋ < 1 / 2 then ⌊q⌋
  else if 1 / 2 < q - ⌊q⌋ then ⌊q⌋ + 1
  else if ⌊q⌋ % 2 = 0 then ⌊q⌋
  else ⌊q⌋ + 1

/-- The distance of neighbouring doubles at `q`. -/
def ulp (q : ℚ) : ℚ := 2 ^ (Int.log 2 |q| - 52)

/-- The double nearest to `q`. -/
def round (q : ℚ) : ℚ := if q = 0 then 0 else halfEven (q / ulp q) * ulp q

variable {q : ℚ} {n : ℤ}

theorem halfEven_cases (q : ℚ) :
    (halfEven q = ⌊q⌋ ∧ q - ⌊q⌋ ≤ 1 / 2) ∨ (halfEven q = ⌊q⌋ + 1 ∧ 1 / 2 ≤ q - ⌊q⌋) := by
  rw [halfEven]
  split
  · rename_i h
    exact .inl ⟨rfl, h.le⟩
  · rename_i h
    split
    · rename_i h'
      exact .inr ⟨rfl, h'.le⟩
    · rename_i h'
      split
      · exact .inl ⟨rfl, not_lt.mp h'⟩
      · exact .inr ⟨rfl, not_lt.mp h⟩

theorem abs_halfEven_sub_le (q : ℚ) : |(halfEven q : ℚ) - q| ≤ 1 / 2 := by
  have hfloor := Int.floor_le q
  have hlt := Int.lt_floor_add_one q
  rcases halfEven_cases q with ⟨h, hq⟩ | ⟨h, hq⟩
  · rw [h, abs_le]
    constructor <;> linarith
  · rw [h, abs_le]
    push_cast
    constructor <;> linarith

theorem le_halfEven (h : (n : ℚ) ≤ q) : n ≤ halfEven q := by
  have hn := Int.le_floor.mpr h
  rcases halfEven_cases q with ⟨hq, -⟩ | ⟨hq, -⟩ <;> omega

theorem halfEven_le (h : q ≤ n) : halfEven q ≤ n := by
  rcases halfEven_cases q with ⟨hq, -⟩ | ⟨hq, hhalf⟩
  · rw [hq]
    exact Int.floor_le_iff.mpr (h.trans_lt (lt_add_one _))
  · -- the floor lies below `q`, so below `n`
    rw [hq]
    have hlt : (⌊q⌋ : ℚ) < n := by linarith
    exact_mod_cast hlt

theorem ulp_pos (q : ℚ) : 0 < ulp q := zpow_pos two_pos _

theorem ulp_le (h : q ≠ 0) : ulp q ≤ |q| / 2 ^ 52 := by
  have hlog := Int.zpow_log_le_self Nat.one_lt_two (abs_pos.mpr h)
  rw [ulp, zpow_sub₀ two_ne_zero, show (2 : ℚ) ^ (52 : ℤ) = 2 ^ 52 by norm_cast]
  exact div_le_div_of_nonneg_right (by exact_mod_cast hlog) (by positivity)

/-- The error is at most half of the distance of neighbouring doubles. -/
theorem abs_round_sub_le (q : ℚ) : |round q - q| ≤ |q| / 2 ^ 53 := by
  by_cases h : q = 0
  · simp [round, h]
  · have hpos := ulp_pos q
    have hround : round q - q = (halfEven (q / ulp q) - q / ulp q) * ulp q := by
      rw [round, if_neg h, sub_mul, div_mul_cancel₀ _ hpos.ne']
    rw [hround, abs_mul, abs_of_pos hpos]
    calc |(halfEven (q / ulp q) : ℚ) - q / ulp q| * ulp q
        ≤ 1 / 2 * ulp q := mul_le_mul_of_nonneg_right (abs_halfEven_sub_le _) hpos.le
      _ ≤ 1 / 2 * (|q| / 2 ^ 52) := mul_le_mul_of_nonneg_left (ulp_le h) (by norm_num)
      _ = |q| / 2 ^ 53 := by ring

/-- Below `2 ^ 53` integers are doubles: they are multiples of the distance of doubles. -/
theorem exists_mul_ulp (h : q ≠ 0) (hq : |q| < 2 ^ 53) (n : ℤ) : ∃ k : ℤ, (n : ℚ) = k * ulp q := by
  have hlog : Int.log 2 |q| < 53 := by
    refine (Int.lt_zpow_iff_log_lt Nat.one_lt_two (abs_pos.mpr h)).mp ?_
    exact_mod_cast hq
  obtain ⟨j, hj⟩ : ∃ j : ℕ, Int.log 2 |q| - 52 = -j := ⟨(52 - Int.log 2 |q|).toNat, by omega⟩
  refine ⟨n * 2 ^ j, ?_⟩
  rw [ulp, hj, zpow_neg, zpow_natCast]
  push_cast
  rw [mul_assoc, mul_inv_cancel₀ (by positivity), mul_one]

/-- Rounding does not cross an integer. -/
theorem le_round (hq : |q| < 2 ^ 53) (h : (n : ℚ) ≤ q) : n ≤ round q := by
  by_cases h0 : q = 0
  · rwa [round, if_pos h0, ← h0]
  · have hpos := ulp_pos q
    obtain ⟨k, hk⟩ := exists_mul_ulp h0 hq n
    rw [hk] at h ⊢
    rw [round, if_neg h0]
    refine mul_le_mul_of_nonneg_right ?_ hpos.le
    exact_mod_cast le_halfEven ((le_div_iff₀ hpos).mpr h)

theorem round_le (hq : |q| < 2 ^ 53) (h : q ≤ n) : round q ≤ n := by
  by_cases h0 : q = 0
  · rwa [round, if_pos h0, ← h0]
  · have hpos := ulp_pos q
    obtain ⟨k, hk⟩ := exists_mul_ulp h0 hq n
    rw [hk] at h ⊢
    rw [round, if_neg h0]
    refine mul_le_mul_of_nonneg_right ?_ hpos.le
    exact_mod_cast halfEven_le ((div_le_iff₀ hpos).mpr h)

theorem round_intCast (h : |(n : ℚ)| < 2 ^ 53) : round n = n :=
  le_antisymm (round_le h le_rfl) (le_round h le_rfl)

/-- A bound of the size of a double. -/
theorem abs_round_le (q : ℚ) : |round q| ≤ |q| * (1 + 1 / 2 ^ 53) := by
  have := abs_sub_abs_le_abs_sub (round q) q
  have := abs_round_sub_le q
  linarith

end Double
