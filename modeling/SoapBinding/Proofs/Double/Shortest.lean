import SoapBinding.Double.Shortest
import SoapBinding.Proofs.Double.Nearest
import Mathlib.Tactic.LinearCombination
import Mathlib.Tactic.Ring

/-!
# The shortest decimal rounds back

Whatever `hit?` finds lies in the interval of numbers that round to the double (`roundsTo_of_hit?`). A
grid that is finer than the interval has a number in it next to the double (`hit?_ne_none`), and that of
seventeen digits is fine enough for every double. So `shortest` always finds a decimal, and it rounds
to the double (`shortest_roundsTo`).
-/

namespace SoapBinding.Double

variable {m n : Nat} {q t : Int}

/-! ### The grid -/

theorem tenTo_pos (n : Int) : 0 < tenTo n := Nat.pow_pos (by decide)

theorem cast_tenTo (n : Int) : (tenTo n : ℚ) = 10 ^ n * tenTo (-n) := by
  unfold tenTo
  rcases Int.le_total 0 n with h | h
  · obtain ⟨k, rfl⟩ := Int.eq_ofNat_of_zero_le h
    simp
  · obtain ⟨k, hk⟩ := Int.eq_ofNat_of_zero_le (show 0 ≤ -n by omega)
    obtain rfl : n = -(k : Int) := by omega
    simp

/-- The step of a grid, scaled to a natural number. -/
def gridUnit (q t : Int) : Nat := tenTo t * twoTo (2 - q)

/-- What a quarter of the last place of a double is scaled to. -/
def gridScale (q t : Int) : Nat := tenTo (-t) * twoTo (q - 2)

/-- The lower end of the interval of a double, in quarters of its last place. -/
def lowQuarters (m : Nat) (q : Int) : Nat :=
  if m = leadingBit && -1074 < q then 4 * m - 1 else 4 * m - 2

/-- Whether a number on a grid rounds to a double. -/
def inside (m : Nat) (q t : Int) (n : Nat) : Bool :=
  if m % 2 = 0 then
    lowQuarters m q * gridScale q t ≤ n * gridUnit q t &&
      n * gridUnit q t ≤ (4 * m + 2) * gridScale q t
  else
    lowQuarters m q * gridScale q t < n * gridUnit q t &&
      n * gridUnit q t < (4 * m + 2) * gridScale q t

/-- The number below a double on a grid. -/
def gridFloor (m : Nat) (q t : Int) : Nat := 4 * m * gridScale q t / gridUnit q t

theorem hit?_def (m : Nat) (q t : Int) :
    hit? m q t =
      match inside m q t (gridFloor m q t), inside m q t (gridFloor m q t + 1) with
      | true, true =>
        if 4 * m * gridScale q t - gridFloor m q t * gridUnit q t <
            (gridFloor m q t + 1) * gridUnit q t - 4 * m * gridScale q t then
          some (gridFloor m q t)
        else some (gridFloor m q t + 1)
      | true, false => some (gridFloor m q t)
      | false, true => some (gridFloor m q t + 1)
      | false, false => none := rfl

theorem gridUnit_pos (q t : Int) : 0 < gridUnit q t := Nat.mul_pos (tenTo_pos t) (twoTo_pos (2 - q))

theorem gridScale_pos (q t : Int) : 0 < gridScale q t :=
  Nat.mul_pos (tenTo_pos (-t)) (twoTo_pos (q - 2))

/-- The scaled comparison with a number on a grid is one of the numbers themselves. -/
theorem cast_gridUnit (q t : Int) :
    (gridUnit q t : ℚ) * 2 ^ (q - 2) = 10 ^ t * gridScale q t := by
  have hpow : (2 : ℚ) ^ (2 - q) * 2 ^ (q - 2) = 1 := by
    rw [← zpow_add₀ (by norm_num)]
    norm_num
  unfold gridUnit gridScale
  push_cast
  rw [cast_tenTo t, cast_twoTo (2 - q), show -(2 - q) = q - 2 by omega]
  linear_combination (10 ^ t * (tenTo (-t) : ℚ) * (twoTo (q - 2) : ℚ)) * hpow

theorem scale_le_iff (c n : Nat) :
    c * gridScale q t ≤ n * gridUnit q t ↔ (c : ℚ) * 2 ^ (q - 2) ≤ n * 10 ^ t := by
  have hscale : (0 : ℚ) < gridScale q t := by exact_mod_cast gridScale_pos q t
  have hpow : (0 : ℚ) < 2 ^ (q - 2) := by positivity
  have hleft : ((c * gridScale q t : Nat) : ℚ) * 2 ^ (q - 2) = c * 2 ^ (q - 2) * gridScale q t := by
    push_cast
    ring
  have hright : ((n * gridUnit q t : Nat) : ℚ) * 2 ^ (q - 2) = n * 10 ^ t * gridScale q t := by
    push_cast
    linear_combination (n : ℚ) * cast_gridUnit q t
  rw [← @Nat.cast_le ℚ, ← mul_le_mul_iff_left₀ hpow, hleft, hright, mul_le_mul_iff_left₀ hscale]

theorem unit_le_iff (c n : Nat) :
    n * gridUnit q t ≤ c * gridScale q t ↔ (n : ℚ) * 10 ^ t ≤ c * 2 ^ (q - 2) := by
  have hscale : (0 : ℚ) < gridScale q t := by exact_mod_cast gridScale_pos q t
  have hpow : (0 : ℚ) < 2 ^ (q - 2) := by positivity
  have hleft : ((n * gridUnit q t : Nat) : ℚ) * 2 ^ (q - 2) = n * 10 ^ t * gridScale q t := by
    push_cast
    linear_combination (n : ℚ) * cast_gridUnit q t
  have hright : ((c * gridScale q t : Nat) : ℚ) * 2 ^ (q - 2) = c * 2 ^ (q - 2) * gridScale q t := by
    push_cast
    ring
  rw [← @Nat.cast_le ℚ, ← mul_le_mul_iff_left₀ hpow, hleft, hright, mul_le_mul_iff_left₀ hscale]

/-- The ends of the interval of a double, in quarters of its last place. -/
theorem low_eq (hm : 0 < m) : (lowQuarters m q : ℚ) * 2 ^ (q - 2) = (m - reach m q) * 2 ^ q := by
  have hpow : (2 : ℚ) ^ q = 4 * 2 ^ (q - 2) := by
    rw [show (4 : ℚ) = 2 ^ (2 : Int) by norm_num, ← zpow_add₀ (by norm_num)]
    exact congrArg _ (by omega)
  rw [hpow]
  unfold lowQuarters reach
  by_cases hlead : m = leadingBit ∧ -1074 < q
  · rw [if_pos (by simpa using hlead), if_pos hlead, Nat.cast_sub (by omega)]
    push_cast
    ring
  · rw [if_neg (by simpa using hlead), if_neg hlead, Nat.cast_sub (by omega)]
    push_cast
    ring

theorem high_eq (m : Nat) (q : Int) :
    ((4 * m + 2 : Nat) : ℚ) * 2 ^ (q - 2) = (m + 1 / 2) * 2 ^ q := by
  have hpow : (2 : ℚ) ^ q = 4 * 2 ^ (q - 2) := by
    rw [show (4 : ℚ) = 2 ^ (2 : Int) by norm_num, ← zpow_add₀ (by norm_num)]
    exact congrArg _ (by omega)
  rw [hpow]
  push_cast
  ring

/-- A number on a grid is found inside exactly if it rounds to the double. -/
theorem inside_iff (hm : 0 < m) (n : Nat) :
    inside m q t n = true ↔ RoundsTo m q (n * 10 ^ t) := by
  unfold inside
  by_cases heven : m % 2 = 0
  · rw [if_pos heven, Bool.and_eq_true, decide_eq_true_eq, decide_eq_true_eq, scale_le_iff,
      unit_le_iff, low_eq hm, high_eq]
    constructor
    · intro ⟨hlow, hhigh⟩
      exact ⟨hlow, hhigh, fun hodd => by omega, fun hodd => by omega⟩
    · intro h
      exact ⟨h.low, h.high⟩
  · rw [if_neg heven, Bool.and_eq_true, decide_eq_true_eq, decide_eq_true_eq, ← not_le, ← not_le,
      unit_le_iff, scale_le_iff, low_eq hm, high_eq, not_le, not_le]
    constructor
    · intro ⟨hlow, hhigh⟩
      exact ⟨hlow.le, hhigh.le, fun _ => hlow, fun _ => hhigh⟩
    · intro h
      exact ⟨h.low_lt (by omega), h.high_lt (by omega)⟩

/-- What is found on a grid rounds to the double. -/
theorem roundsTo_of_hit? (hm : 0 < m) (h : hit? m q t = some n) : RoundsTo m q (n * 10 ^ t) := by
  rw [← inside_iff hm]
  rw [hit?_def] at h
  split at h
  · split at h
    · cases h
      assumption
    · cases h
      assumption
  · cases h
    assumption
  · cases h
    assumption
  · cases h

/-- A grid that is finer than the interval of a double has a number in it next to the double. -/
theorem hit?_ne_none (hm : 0 < m) (hfine : (10 : ℚ) ^ t < (reach m q + 1 / 2) * 2 ^ q) :
    hit? m q t ≠ none := by
  have hpow : (0 : ℚ) < 2 ^ q := by positivity
  have hreach : 0 < reach m q := by
    unfold reach
    split <;> norm_num
  have hquarter : ((4 * m : Nat) : ℚ) * 2 ^ (q - 2) = m * 2 ^ q := by
    have hsplit : (2 : ℚ) ^ q = 4 * 2 ^ (q - 2) := by
      rw [show (4 : ℚ) = 2 ^ (2 : Int) by norm_num, ← zpow_add₀ (by norm_num)]
      exact congrArg _ (by omega)
    rw [hsplit]
    push_cast
    ring
  have hfloor : (gridFloor m q t : ℚ) * 10 ^ t ≤ m * 2 ^ q := by
    rw [← hquarter, ← unit_le_iff]
    exact Nat.div_mul_le_self _ _
  have hnext : (m : ℚ) * 2 ^ q < (gridFloor m q t + 1 : Nat) * 10 ^ t := by
    rw [← hquarter, ← not_le, ← unit_le_iff, not_le, mul_comm (gridFloor m q t + 1)]
    exact Nat.lt_mul_div_succ _ (gridUnit_pos q t)
  -- between the ends of the interval, a number rounds to the double
  have hbetween (n : Nat) (hlow : (m - reach m q) * 2 ^ q < n * 10 ^ t)
      (hhigh : (n : ℚ) * 10 ^ t < (m + 1 / 2) * 2 ^ q) : inside m q t n = true :=
    (inside_iff hm n).2 ⟨hlow.le, hhigh.le, fun _ => hlow, fun _ => hhigh⟩
  intro hnone
  have hmiss : inside m q t (gridFloor m q t) = false ∧ inside m q t (gridFloor m q t + 1) = false := by
    rw [hit?_def] at hnone
    split at hnone
    · split at hnone <;> cases hnone
    · cases hnone
    · cases hnone
    · exact ⟨by assumption, by assumption⟩
  have hleft : (gridFloor m q t : ℚ) * 10 ^ t ≤ (m - reach m q) * 2 ^ q := by
    refine not_lt.1 fun hlow => ?_
    have := hbetween (gridFloor m q t) hlow (by nlinarith)
    rw [hmiss.1] at this
    cases this
  have hright : (m + 1 / 2 : ℚ) * 2 ^ q ≤ (gridFloor m q t + 1 : Nat) * 10 ^ t := by
    refine not_lt.1 fun hhigh => ?_
    have := hbetween (gridFloor m q t + 1) (by nlinarith) hhigh
    rw [hmiss.2] at this
    cases this
  push_cast at hright
  linarith

/-! ### The number of digits -/

theorem pow_digitCount_le {n : Nat} (h : 0 < n) : 10 ^ (digitCount n - 1) ≤ n := by
  rw [digitCount, if_neg (by omega)]
  by_cases hone : (Nat.toDigits 10 n).length = 1
  · rw [hone]
    exact h
  · have hpos := @Nat.length_toDigits_pos 10 n
    refine Nat.le_of_not_lt fun hlt => ?_
    have := (Nat.length_toDigits_le_iff (by decide) (by omega)).2 hlt
    omega

/-- Climbing stops where the number reaches one. -/
theorem climb_spec (den : Nat) {fuel num : Nat} (p : Int) (h : den ≤ num * 10 ^ fuel) :
    ∃ steps : Nat, decimalExponent.climb den fuel num p = p - steps ∧ den ≤ num * 10 ^ steps := by
  induction fuel generalizing num p with
  | zero => exact ⟨0, by simp [decimalExponent.climb], h⟩
  | succ fuel ih =>
    rw [decimalExponent.climb]
    by_cases hreached : den ≤ num
    · exact ⟨0, by simp [hreached], by simpa using hreached⟩
    · obtain ⟨steps, heq, hle⟩ := @ih (num * 10) (p - 1) (by rwa [mul_assoc, ← pow_succ'])
      refine ⟨steps + 1, ?_, by rwa [mul_assoc, ← pow_succ'] at hle⟩
      rw [if_neg hreached, heq]
      push_cast
      ring

theorem twoTo_le_pow {n : Int} {k : Nat} (h : n ≤ 3 * k) : twoTo n ≤ 10 ^ k := by
  calc twoTo n ≤ 2 ^ (3 * k) := Nat.pow_le_pow_right (by decide) (by omega)
    _ = (2 ^ 3) ^ k := Nat.pow_mul 2 3 k
    _ ≤ 10 ^ k := Nat.pow_le_pow_left (by decide) k

/-- The power of ten below a double. -/
theorem decimalExponent_le (hm : 0 < m) (hq : -1074 ≤ q) :
    (10 : ℚ) ^ (decimalExponent m q - 1) ≤ m * 2 ^ q := by
  have hden : (0 : ℚ) < twoTo (-q) := by exact_mod_cast twoTo_pos (-q)
  have hvalue : (m * 2 ^ q : ℚ) * twoTo (-q) = (m * twoTo q : Nat) := by
    push_cast
    rw [cast_twoTo q]
    ring
  rw [← mul_le_mul_iff_left₀ hden, hvalue]
  unfold decimalExponent
  dsimp only
  split
  · next hle =>
    have hpos : 0 < m * twoTo q / twoTo (-q) := Nat.div_pos hle (twoTo_pos (-q))
    have hdigits := pow_digitCount_le hpos
    have hone : 0 < digitCount (m * twoTo q / twoTo (-q)) := by
      rw [digitCount, if_neg (by omega)]
      exact Nat.length_toDigits_pos
    rw [show ((digitCount (m * twoTo q / twoTo (-q)) : Nat) : Int) - 1 =
      ((digitCount (m * twoTo q / twoTo (-q)) - 1 : Nat) : Int) by omega, zpow_natCast]
    have := Nat.mul_le_of_le_div _ _ _ hdigits
    exact_mod_cast this
  · have hfuel : twoTo (-q) ≤ m * twoTo q * 10 ^ 400 := by
      exact le_trans (twoTo_le_pow (by omega))
        (Nat.le_mul_of_pos_left _ (Nat.mul_pos hm (twoTo_pos q)))
    obtain ⟨steps, heq, hle⟩ := climb_spec (twoTo (-q)) 1 hfuel
    rw [heq, show (1 : Int) - steps - 1 = -(steps : Int) by ring, zpow_neg, zpow_natCast,
      inv_mul_le_iff₀ (by positivity), mul_comm]
    exact_mod_cast hle

/-! ### The shortest decimal -/

/-- Dropping zeros leaves the number as it is. -/
theorem dropZeros_eq (fuel n : Nat) (t : Int) :
    ((dropZeros fuel n t).1 : ℚ) * 10 ^ (dropZeros fuel n t).2 = n * 10 ^ t := by
  induction fuel generalizing n t with
  | zero => rfl
  | succ fuel ih =>
    rw [dropZeros]
    split
    · next hzero =>
      simp only [Bool.and_eq_true, decide_eq_true_eq] at hzero
      obtain ⟨k, rfl⟩ := Nat.dvd_of_mod_eq_zero hzero.1
      rw [ih, Nat.mul_div_cancel_left k (by decide), zpow_add₀ (by norm_num), zpow_one]
      push_cast
      ring
    · rfl

/-- Seventeen digits are enough for every double. -/
theorem hit?_seventeen (hm : IsFinite m q) (hpos : 0 < m) :
    hit? m q (decimalExponent m q - 17) ≠ none := by
  have hpow : (0 : ℚ) < 2 ^ q := by positivity
  have hbelow := decimalExponent_le hpos hm.exponent_mem.1
  have hsplit : (10 : ℚ) ^ (decimalExponent m q - 1) =
      10 ^ (decimalExponent m q - 17) * 10 ^ (16 : Int) := by
    rw [← zpow_add₀ (by norm_num)]
    exact congrArg _ (by omega)
  rw [hsplit] at hbelow
  refine hit?_ne_none hpos ?_
  -- a last place is more than the ten quadrillionth part of a double
  have hplace : (m : ℚ) < (reach m q + 1 / 2) * 10 ^ (16 : Int) := by
    have hlt : (m : ℚ) < 2 * leadingBit := by exact_mod_cast hm.lt
    have hlead : (leadingBit : ℚ) = 4503599627370496 := by norm_num [leadingBit]
    rw [hlead] at hlt
    unfold reach
    split
    · next h =>
      rw [h.1, hlead]
      norm_num
    · norm_num at hlt ⊢
      linarith
  have hten : (0 : ℚ) < 10 ^ (16 : Int) := by positivity
  refine lt_of_mul_lt_mul_right (lt_of_le_of_lt hbelow ?_) hten.le
  calc (m : ℚ) * 2 ^ q < (reach m q + 1 / 2) * 10 ^ (16 : Int) * 2 ^ q :=
        mul_lt_mul_of_pos_right hplace hpow
    _ = (reach m q + 1 / 2) * 2 ^ q * 10 ^ (16 : Int) := by ring

/-- **The shortest decimal rounds to the double.** -/
theorem shortest_roundsTo (hm : IsFinite m q) (hpos : 0 < m) :
    RoundsTo m q ((shortest m q).1 * 10 ^ (shortest m q).2) := by
  have hfound : ∃ n t, hit? m q t = some n ∧
      ((List.range 17).findSome? fun (k : Nat) =>
        (hit? m q (decimalExponent m q - (k + 1))).map (·, decimalExponent m q - (k + 1))) =
        some (n, t) := by
    cases hsome : (List.range 17).findSome? fun (k : Nat) =>
        (hit? m q (decimalExponent m q - (k + 1))).map (·, decimalExponent m q - ((k : Int) + 1)) with
    | none =>
      have hmiss := List.findSome?_eq_none_iff.1 hsome 16 (by decide)
      rw [Option.map_eq_none_iff] at hmiss
      exact absurd hmiss (hit?_seventeen hm hpos)
    | some found =>
      obtain ⟨k, -, hk⟩ := List.exists_of_findSome?_eq_some hsome
      obtain ⟨n, hn, rfl⟩ := Option.map_eq_some_iff.1 hk
      exact ⟨n, _, hn, rfl⟩
  obtain ⟨n, t, hn, hfound⟩ := hfound
  unfold shortest
  dsimp only
  rw [hfound]
  dsimp only [Option.getD_some]
  rw [dropZeros_eq]
  exact roundsTo_of_hit? hpos hn

end SoapBinding.Double
