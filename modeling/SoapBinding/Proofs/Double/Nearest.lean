import Mathlib.Algebra.Order.Field.Power
import Mathlib.Data.Rat.Cast.Order
import Mathlib.Tactic.FieldSimp
import Mathlib.Tactic.Linarith
import Mathlib.Tactic.NormNum
import Mathlib.Tactic.Positivity
import SoapBinding.Double.Basic

/-!
# Correct rounding

A finite double is `m · 2 ^ q` without its sign, and the ratios that round to it lie in an interval
around it (`RoundsTo`). For each of them `nearest` finds the bits of the double (`nearest_eq`): the
exponent that it starts from is the one of the double, unless the double is a power of two and the
ratio lies below it. There the significand is rounded up to the next power of two, and the bits come
out the same.
-/

namespace SoapBinding.Double

/-- The significand and the exponent of a finite double, as the format has them. -/
structure IsFinite (m : Nat) (q : Int) : Prop where
  lt : m < 2 * leadingBit
  exponent_mem : -1074 ≤ q ∧ q ≤ 971
  normal : q = -1074 ∨ leadingBit ≤ m

/-- The bits, without a sign, of the double with a significand and an exponent. -/
def bitsOf (m : Nat) (q : Int) : Nat := (q + 1074).toNat * leadingBit + m

/-- How far below a double the numbers reach that round to it, in units of its last place. The lower
neighbour of a power of two is at half the distance. -/
def reach (m : Nat) (q : Int) : ℚ := if m = leadingBit ∧ -1074 < q then 1 / 4 else 1 / 2

/-- The numbers that round to the double `m · 2 ^ q`: the ends of their interval are among them exactly
if `m` is even. -/
structure RoundsTo (m : Nat) (q : Int) (x : ℚ) : Prop where
  low : (m - reach m q) * 2 ^ q ≤ x
  high : x ≤ (m + 1 / 2) * 2 ^ q
  low_lt : m % 2 = 1 → (m - reach m q) * 2 ^ q < x
  high_lt : m % 2 = 1 → x < (m + 1 / 2) * 2 ^ q

/-! ### Scaling -/

theorem cast_twoTo (n : Int) : (twoTo n : ℚ) = 2 ^ n * twoTo (-n) := by
  unfold twoTo
  rcases Int.le_total 0 n with h | h
  · obtain ⟨k, rfl⟩ := Int.eq_ofNat_of_zero_le h
    simp
  · obtain ⟨k, hk⟩ := Int.eq_ofNat_of_zero_le (show 0 ≤ -n by omega)
    obtain rfl : n = -(k : Int) := by omega
    simp

theorem twoTo_pos (n : Int) : 0 < twoTo n := Nat.pow_pos (by decide)

/-- A ratio scaled by a power of two. -/
theorem scaled_eq (num den : Nat) (q : Int) :
    ((num * twoTo (-q) : Nat) : ℚ) / ((den * twoTo q : Nat) : ℚ) = num / den / 2 ^ q := by
  have hpos : (twoTo (-q) : ℚ) ≠ 0 := by exact_mod_cast (twoTo_pos (-q)).ne'
  have hpow : (2 : ℚ) ^ q ≠ 0 := zpow_ne_zero q (by norm_num)
  push_cast
  rw [cast_twoTo q]
  by_cases hden : (den : ℚ) = 0
  · simp [hden]
  · field_simp

/-! ### Rounding to a natural number -/

/-- A ratio in the interval of a natural number is rounded to it. -/
theorem roundHalfEven_eq {num den m : Nat} (hden : 0 < den)
    (hlow : (m : ℚ) - 1 / 2 ≤ num / den) (hhigh : (num : ℚ) / den ≤ m + 1 / 2)
    (hodd : m % 2 = 1 → (m : ℚ) - 1 / 2 < num / den ∧ (num : ℚ) / den < m + 1 / 2) :
    roundHalfEven num den = m := by
  have hcast : (0 : ℚ) < den := by exact_mod_cast hden
  have hlow' : 2 * (den * m) ≤ 2 * num + den := by
    rw [le_div_iff₀ hcast] at hlow
    have : (2 * (den * m) : ℚ) ≤ 2 * num + den := by linarith
    exact_mod_cast this
  have hhigh' : 2 * num ≤ 2 * (den * m) + den := by
    rw [div_le_iff₀ hcast] at hhigh
    have : (2 * num : ℚ) ≤ 2 * (den * m) + den := by linarith
    exact_mod_cast this
  have hodd' : m % 2 = 1 → 2 * (den * m) < 2 * num + den ∧ 2 * num < 2 * (den * m) + den := by
    intro hm
    obtain ⟨hl, hh⟩ := hodd hm
    rw [lt_div_iff₀ hcast] at hl
    rw [div_lt_iff₀ hcast] at hh
    have h1 : (2 * (den * m) : ℚ) < 2 * num + den := by linarith
    have h2 : (2 * num : ℚ) < 2 * (den * m) + den := by linarith
    exact ⟨by exact_mod_cast h1, by exact_mod_cast h2⟩
  have hsum := Nat.div_add_mod num den
  have hmod := Nat.mod_lt num hden
  unfold roundHalfEven
  generalize num / den = floor at *
  generalize num % den = rest at *
  -- the floor is the number or the one below it
  have hcases : floor = m ∨ floor + 1 = m := by
    rcases Nat.lt_trichotomy floor m with hlt | heq | hgt
    · refine .inr (Nat.le_antisymm hlt (Nat.le_of_not_lt fun hfar => ?_))
      have := Nat.mul_le_mul_left den (show floor + 2 ≤ m by omega)
      rw [Nat.mul_add] at this
      omega
    · exact .inl heq
    · have := Nat.mul_le_mul_left den (show m + 1 ≤ floor by omega)
      rw [Nat.mul_add] at this
      omega
  dsimp only
  rcases hcases with rfl | rfl
  · split
    · rfl
    · split <;> omega
  · rw [Nat.mul_add] at hlow' hhigh' hodd'
    split
    · omega
    · split <;> omega

/-! ### The exponent -/

/-- The exponent that `nearest` scales by. -/
def exponentOf (num den : Nat) : Int :=
  let start := max ((Nat.log2 num : Int) - Nat.log2 den - 52) (-1074)
  if num * twoTo (-start) < den * twoTo start * leadingBit && -1074 < start then start - 1 else start

theorem nearest_def (num den : Nat) :
    nearest num den =
      min ((exponentOf num den + 1074).toNat * leadingBit +
        roundHalfEven (num * twoTo (-exponentOf num den)) (den * twoTo (exponentOf num den)))
        infinityBits := rfl

theorem log2_spec {n : Nat} (h : 0 < n) :
    (2 : ℚ) ^ (Nat.log2 n : Int) ≤ n ∧ (n : ℚ) < 2 ^ ((Nat.log2 n : Int) + 1) := by
  constructor
  · rw [zpow_natCast]
    exact_mod_cast Nat.log2_self_le h.ne'
  · have := @Nat.lt_log2_self n
    rw [show ((Nat.log2 n : Int) + 1) = ((Nat.log2 n + 1 : Nat) : Int) by push_cast; rfl, zpow_natCast]
    exact_mod_cast this

/-- A ratio lies between the powers of two that the sizes of its parts tell. -/
theorem ratio_spec {num den : Nat} (hnum : 0 < num) (hden : 0 < den) :
    (2 : ℚ) ^ ((Nat.log2 num : Int) - Nat.log2 den - 1) < num / den ∧
      (num : ℚ) / den < 2 ^ ((Nat.log2 num : Int) - Nat.log2 den + 1) := by
  have htwo : (2 : ℚ) ≠ 0 := by norm_num
  have hcast : (0 : ℚ) < den := by exact_mod_cast hden
  obtain ⟨hnumLow, hnumHigh⟩ := log2_spec hnum
  obtain ⟨hdenLow, hdenHigh⟩ := log2_spec hden
  constructor
  · rw [lt_div_iff₀ hcast]
    calc (2 : ℚ) ^ ((Nat.log2 num : Int) - Nat.log2 den - 1) * den
        < 2 ^ ((Nat.log2 num : Int) - Nat.log2 den - 1) * 2 ^ ((Nat.log2 den : Int) + 1) :=
          mul_lt_mul_of_pos_left hdenHigh (by positivity)
      _ = 2 ^ (Nat.log2 num : Int) := by
          rw [← zpow_add₀ htwo]
          exact congrArg _ (by omega)
      _ ≤ num := hnumLow
  · rw [div_lt_iff₀ hcast]
    calc (num : ℚ) < 2 ^ ((Nat.log2 num : Int) + 1) := hnumHigh
      _ = 2 ^ ((Nat.log2 num : Int) - Nat.log2 den + 1) * 2 ^ (Nat.log2 den : Int) := by
          rw [← zpow_add₀ htwo]
          exact congrArg _ (by omega)
      _ ≤ 2 ^ ((Nat.log2 num : Int) - Nat.log2 den + 1) * den :=
          mul_le_mul_of_nonneg_left hdenLow (by positivity)

theorem cast_leadingBit : (leadingBit : ℚ) = 2 ^ (52 : Int) := by norm_num [leadingBit]

/-- Powers of two are in order. -/
theorem zpow_two_le {a b : Int} (h : a ≤ b) : (2 : ℚ) ^ a ≤ 2 ^ b :=
  zpow_le_zpow_right₀ (by norm_num) h

/-- The test by which `nearest` corrects the exponent. -/
theorem scaled_lt_iff {num den : Nat} (hden : 0 < den) (q : Int) :
    num * twoTo (-q) < den * twoTo q * leadingBit ↔ (num : ℚ) / den < 2 ^ (q + 52) := by
  have hpos : (0 : ℚ) < (den * twoTo q : Nat) := by exact_mod_cast Nat.mul_pos hden (twoTo_pos q)
  rw [← @Nat.cast_lt ℚ, Nat.cast_mul (den * twoTo q), mul_comm ((den * twoTo q : Nat) : ℚ),
    ← div_lt_iff₀ hpos, scaled_eq, div_lt_iff₀ (by positivity), cast_leadingBit,
    ← zpow_add₀ (by norm_num), add_comm]

/-- Scaled by the exponent, a ratio has fifty-three bits in front of the point, or fewer if the
exponent is the least. -/
theorem exponentOf_spec {num den : Nat} (hnum : 0 < num) (hden : 0 < den) :
    -1074 ≤ exponentOf num den ∧ (num : ℚ) / den < 2 ^ (exponentOf num den + 53) ∧
      (exponentOf num den = -1074 ∨ (2 : ℚ) ^ (exponentOf num den + 52) ≤ num / den) := by
  obtain ⟨hlow, hhigh⟩ := ratio_spec hnum hden
  unfold exponentOf
  dsimp only
  generalize hstart : max ((Nat.log2 num : Int) - Nat.log2 den - 52) (-1074) = start
  simp only [Bool.and_eq_true, decide_eq_true_eq, scaled_lt_iff hden]
  by_cases hsmall : (num : ℚ) / den < 2 ^ (start + 52) ∧ -1074 < start
  · rw [if_pos hsmall]
    refine ⟨by omega, ?_, .inr (le_trans (zpow_two_le ?_) hlow.le)⟩
    · rw [show start - 1 + 53 = start + 52 by omega]
      exact hsmall.1
    · omega
  · rw [if_neg hsmall]
    refine ⟨by omega, lt_of_lt_of_le hhigh (zpow_two_le (by omega)), ?_⟩
    by_cases hleast : start = -1074
    · exact .inl hleast
    · exact .inr (not_lt.1 fun h => hsmall ⟨h, by omega⟩)

/-! ### The nearest double -/

variable {m : Nat} {q : Int} {num den : Nat}

theorem reach_le (m : Nat) (q : Int) : reach m q ≤ 1 / 2 := by
  unfold reach
  split <;> norm_num

/-- A ratio that rounds to a double is scaled by the exponent of the double, or by the one below if the
double is a power of two. -/
theorem exponentOf_cases (hm : IsFinite m q) (hnum : 0 < num) (hden : 0 < den)
    (hx : RoundsTo m q (num / den)) :
    exponentOf num den = q ∨
      (exponentOf num den = q - 1 ∧ m = leadingBit ∧ -1074 < q ∧ (num : ℚ) / den < 2 ^ (q + 52)) := by
  obtain ⟨hleast, hbelow, habove⟩ := exponentOf_spec hnum hden
  have hpow : (0 : ℚ) < 2 ^ q := by positivity
  have hlt : (m : ℚ) + 1 ≤ 2 * 2 ^ (52 : Int) := by
    rw [← cast_leadingBit]
    exact_mod_cast hm.lt
  have hsplit (k : Int) : (2 : ℚ) ^ (q + k) = 2 ^ q * 2 ^ k := zpow_add₀ (by norm_num) q k
  have hreach := reach_le m q
  generalize exponentOf num den = e at *
  rcases Int.lt_trichotomy e q with hless | heq | hmore
  · -- the ratio is below a power of two, and no double but that power is so near
    have hx52 : (num : ℚ) / den < 2 ^ (q + 52) := lt_of_lt_of_le hbelow (zpow_two_le (by omega))
    have hnormal : leadingBit ≤ m := hm.normal.resolve_left (by omega)
    have hlead : m = leadingBit := by
      refine Nat.le_antisymm (Nat.le_of_not_lt fun hgt => ?_) hnormal
      have hgt' : (leadingBit : ℚ) + 1 ≤ m := by exact_mod_cast hgt
      have hlow := hx.low
      rw [hsplit, ← cast_leadingBit] at hx52
      nlinarith
    refine .inr ⟨?_, hlead, by omega, hx52⟩
    by_contra hne
    have hfar : (num : ℚ) / den < 2 ^ (q + 51) := lt_of_lt_of_le hbelow (zpow_two_le (by omega))
    have hlow := hx.low
    have hhalf : (2 : ℚ) ^ (51 : Int) + 1 ≤ leadingBit - 1 / 2 := by norm_num [leadingBit]
    rw [hsplit] at hfar
    rw [hlead] at hlow hreach
    nlinarith
  · exact .inl heq
  · have hx53 : (2 : ℚ) ^ (q + 53) ≤ num / den := by
      rcases habove with h | h
      · have := hm.exponent_mem
        omega
      · exact le_trans (zpow_two_le (by omega)) h
    have hhigh := hx.high
    rw [hsplit, show (53 : Int) = 1 + 52 by norm_num, zpow_add₀ (by norm_num), zpow_one] at hx53
    nlinarith

/-- **A ratio that rounds to a double is rounded to it.** -/
theorem nearest_eq (hm : IsFinite m q) (hnum : 0 < num) (hden : 0 < den)
    (hx : RoundsTo m q (num / den)) : nearest num den = bitsOf m q := by
  have hmem := hm.exponent_mem
  have hlt := hm.lt
  have hpow : (0 : ℚ) < 2 ^ q := by positivity
  have hreach := reach_le m q
  have hscaled (e : Int) : 0 < den * twoTo e := Nat.mul_pos hden (twoTo_pos e)
  have hbits : bitsOf m q ≤ infinityBits := by
    unfold bitsOf infinityBits leadingBit at *
    omega
  rw [nearest_def]
  rcases exponentOf_cases hm hnum hden hx with he | ⟨he, hlead, hq, hsmall⟩
  · rw [he, roundHalfEven_eq (hscaled q) (m := m)]
    · exact Nat.min_eq_left hbits
    · rw [scaled_eq, le_div_iff₀ hpow]
      exact le_trans (mul_le_mul_of_nonneg_right (by linarith) hpow.le) hx.low
    · rw [scaled_eq, div_le_iff₀ hpow]
      exact hx.high
    · intro hodd
      rw [scaled_eq, lt_div_iff₀ hpow, div_lt_iff₀ hpow]
      exact ⟨lt_of_le_of_lt (mul_le_mul_of_nonneg_right (by linarith) hpow.le) (hx.low_lt hodd),
        hx.high_lt hodd⟩
  · have hpow' : (0 : ℚ) < 2 ^ (q - 1) := by positivity
    have hdouble : (2 : ℚ) ^ q = 2 * 2 ^ (q - 1) := by
      rw [← zpow_one_add₀ (by norm_num)]
      exact congrArg _ (by omega)
    have hlow : ((2 * leadingBit : Nat) : ℚ) - 1 / 2 ≤ num / den / 2 ^ (q - 1) := by
      have hlow := hx.low
      rw [reach, if_pos ⟨hlead, hq⟩, hlead, hdouble] at hlow
      rw [le_div_iff₀ hpow']
      push_cast
      linarith
    have hhigh : (num : ℚ) / den / 2 ^ (q - 1) < (2 * leadingBit : Nat) := by
      rw [zpow_add₀ (by norm_num), hdouble, ← cast_leadingBit] at hsmall
      rw [div_lt_iff₀ hpow']
      push_cast
      linarith
    -- the significand is rounded up to the next power of two, which is that of the double
    rw [he, roundHalfEven_eq (hscaled (q - 1)) (m := 2 * leadingBit)]
    · have hindex : (q - 1 + 1074).toNat * leadingBit + 2 * leadingBit = bitsOf m q := by
        unfold bitsOf leadingBit at *
        omega
      rw [hindex]
      exact Nat.min_eq_left hbits
    · rw [scaled_eq]
      exact hlow
    · rw [scaled_eq]
      linarith
    · intro hodd
      omega

end SoapBinding.Double
