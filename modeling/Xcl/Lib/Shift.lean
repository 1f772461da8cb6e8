import Mathlib.Algebra.Order.Floor.Ring
import Mathlib.Tactic

/-!
# Arithmetic shifts of integers

* `ash x s`: `x * 2 ^ s`, rounded down, for a count `s` of either sign;
* **`ash_eq_floor`**: the definition over the rationals.
-/

namespace Shift

/-- `x * 2 ^ s`, rounded down. -/
def ash (x s : ℤ) : ℤ := if 0 ≤ s then x * 2 ^ s.toNat else x / 2 ^ (-s).toNat

variable {x y s t : ℤ}

theorem ash_of_nonneg (hs : 0 ≤ s) : ash x s = x * 2 ^ s.toNat := if_pos hs

theorem ash_of_nonpos (hs : s ≤ 0) : ash x s = x / 2 ^ (-s).toNat := by
  rcases hs.lt_or_eq with hneg | rfl
  · exact if_neg hneg.not_ge
  · simp [ash]

theorem ash_eq_floor (x s : ℤ) : ash x s = ⌊(x : ℚ) * 2 ^ s⌋ := by
  rcases le_total 0 s with hs | hs
  · have h : (x : ℚ) * 2 ^ s = ((x * 2 ^ s.toNat : ℤ) : ℚ) := by
      rw [Int.cast_mul, Int.cast_pow, Int.cast_ofNat, ← zpow_natCast, Int.toNat_of_nonneg hs]
    rw [ash_of_nonneg hs, h, Int.floor_intCast]
  · have h : (x : ℚ) * 2 ^ s = (x : ℚ) / ((2 ^ (-s).toNat : ℕ) : ℚ) := by
      rw [Nat.cast_pow, Nat.cast_ofNat, ← zpow_natCast, Int.toNat_of_nonneg (by omega), zpow_neg,
        div_inv_eq_mul]
    rw [ash_of_nonpos hs, h, Rat.floor_intCast_div_natCast, Nat.cast_pow, Nat.cast_ofNat]

theorem ash_mono (s : ℤ) (h : x ≤ y) : ash x s ≤ ash y s := by
  rcases le_total 0 s with hs | hs
  · rw [ash_of_nonneg hs, ash_of_nonneg hs]
    exact mul_le_mul_of_nonneg_right h (by positivity)
  · rw [ash_of_nonpos hs, ash_of_nonpos hs]
    exact Int.ediv_le_ediv (by positivity) h

theorem ash_split (x : ℤ) (hst : s ≤ t) (ht : t ≤ 0) :
    ash x s = ash x t / 2 ^ (t - s).toNat := by
  have hs : (-s).toNat = (-t).toNat + (t - s).toNat := by omega
  rw [ash_of_nonpos (hst.trans ht), ash_of_nonpos ht, hs, pow_add,
    Int.ediv_ediv_of_nonneg (by positivity)]

theorem ash_nonneg (s : ℤ) (hx : 0 ≤ x) : 0 ≤ ash x s := by
  have h := ash_mono s hx
  simpa [ash] using h

theorem ash_neg (s : ℤ) (hx : x < 0) : ash x s < 0 := by
  have h := ash_mono s (show x ≤ -1 by omega)
  have hone : ash (-1) s < 0 := by
    rcases le_total 0 s with hs | hs
    · rw [ash_of_nonneg hs, neg_one_mul, neg_lt_zero]
      positivity
    · rw [ash_of_nonpos hs]
      exact Int.ediv_neg_of_neg_of_pos (by decide) (by positivity)
  exact h.trans_lt hone

/-- The quotient of a negative integer lies above it, strictly so below `-1`. -/
theorem lt_ediv_two_pow {k : ℕ} (hx : x < -1) (hk : 0 < k) : x < x / 2 ^ k := by
  have hpow : (2 : ℤ) ≤ 2 ^ k := by
    calc (2 : ℤ) = 2 ^ 1 := by norm_num
      _ ≤ 2 ^ k := pow_le_pow_right₀ (by decide) hk
  rw [← Int.add_one_le_iff, Int.le_ediv_iff_mul_le (by positivity)]
  nlinarith

theorem le_ediv_two_pow {k : ℕ} (hx : x < 0) : x ≤ x / 2 ^ k := by
  have hpow : (1 : ℤ) ≤ 2 ^ k := one_le_pow₀ (by decide)
  rw [Int.le_ediv_iff_mul_le (by positivity)]
  nlinarith

theorem ash_mono_count (hx : 0 ≤ x) (hst : s ≤ t) : ash x s ≤ ash x t := by
  rcases le_total 0 s with hs | hs
  · rw [ash_of_nonneg hs, ash_of_nonneg (hs.trans hst)]
    exact mul_le_mul_of_nonneg_left (pow_le_pow_right₀ (by decide) (by omega)) hx
  · rcases le_total 0 t with ht | ht
    · -- through the count zero
      calc ash x s = x / 2 ^ (-s).toNat := ash_of_nonpos hs
        _ ≤ x := Int.ediv_le_self _ hx
        _ ≤ x * 2 ^ t.toNat := le_mul_of_one_le_right hx (one_le_pow₀ (by decide))
        _ = ash x t := (ash_of_nonneg ht).symm
    · rw [ash_split x hst ht]
      exact Int.ediv_le_self _ (ash_nonneg t hx)

theorem ash_anti_count (hx : x < 0) (hst : s ≤ t) (ht : t ≤ 0) : ash x t ≤ ash x s := by
  rw [ash_split x hst ht]
  exact le_ediv_two_pow (ash_neg t hx)

/-- A right shift gives at least `-1` exactly from `-2 ^ k` on. -/
theorem neg_one_le_ash (hs : s ≤ 0) : -1 ≤ ash x s ↔ -2 ^ (-s).toNat ≤ x := by
  rw [ash_of_nonpos hs, Int.le_ediv_iff_mul_le (by positivity), neg_one_mul]

theorem ash_nonpos (hs : s ≤ 0) : ash x s ≤ 0 ↔ x < 2 ^ (-s).toNat := by
  rw [ash_of_nonpos hs, ← Int.lt_add_one_iff, Int.ediv_lt_iff_lt_mul (by positivity), zero_add,
    one_mul]

end Shift
