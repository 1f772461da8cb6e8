import Mathlib.Algebra.Order.Field.Basic
import Mathlib.Algebra.Order.Field.Rat
import Mathlib.Data.Rat.Cast.Order
import Mathlib.Tactic

/-!
# Rounding integers to a number of bits

* `Representable`: the numbers `m * 2 ^ e` with at most `p` bits in `m`;
* **`roundInt_le`**, **`le_roundInt`**: rounding does not pass a representable number.
-/

namespace Xcl.Rounding

/-- A number with at most `p` significant bits. -/
def Representable (p : ℕ) (f : ℚ) : Prop := ∃ m e : ℤ, |m| < 2 ^ p ∧ f = m * 2 ^ e

theorem Representable.neg {p : ℕ} {f : ℚ} (h : Representable p f) : Representable p (-f) := by
  obtain ⟨m, e, hm, rfl⟩ := h
  refine ⟨-m, e, by rwa [abs_neg], ?_⟩
  rw [Int.cast_neg, neg_mul]

/-- The number of low bits that are rounded away. -/
def excess (p n : ℕ) : ℕ := n.log2 + 1 - p

/-- The multiple of `2 ^ excess p n` that is nearest to `n`, the even one of two. -/
def roundNat (p n : ℕ) : ℕ :=
  let unit := 2 ^ excess p n
  let q := n / unit
  let r := n % unit
  (if 2 * r < unit ∨ (2 * r = unit ∧ q % 2 = 0) then q else q + 1) * unit

def roundInt (p : ℕ) (n : ℤ) : ℤ :=
  if 0 ≤ n then roundNat p n.toNat else -roundNat p (-n).toNat

/-- The two neighbours of `n`; `n` itself is not changed when it is one of them. -/
theorem roundNat_bounds (p n : ℕ) :
    n / 2 ^ excess p n * 2 ^ excess p n ≤ roundNat p n ∧
      roundNat p n ≤ (n / 2 ^ excess p n + 1) * 2 ^ excess p n ∧
      (n % 2 ^ excess p n = 0 → roundNat p n = n) := by
  unfold roundNat
  have hpos : 0 < 2 ^ excess p n := Nat.two_pow_pos _
  have hdiv : 2 ^ excess p n * (n / 2 ^ excess p n) + n % 2 ^ excess p n = n := Nat.div_add_mod _ _
  by_cases h : 2 * (n % 2 ^ excess p n) < 2 ^ excess p n ∨
      (2 * (n % 2 ^ excess p n) = 2 ^ excess p n ∧ n / 2 ^ excess p n % 2 = 0)
  · simp only [if_pos h]
    refine ⟨le_rfl, Nat.mul_le_mul_right _ (Nat.le_succ _), ?_⟩
    intro hr
    rw [hr, Nat.add_zero, Nat.mul_comm] at hdiv
    exact hdiv
  · simp only [if_neg h]
    refine ⟨Nat.mul_le_mul_right _ (Nat.le_succ _), le_rfl, ?_⟩
    intro hr
    exact absurd (Or.inl (by rw [hr]; omega)) h

theorem two_pow_le_div {p n : ℕ} (hp : 0 < p) (he : 0 < excess p n) :
    2 ^ (p - 1) ≤ n / 2 ^ excess p n := by
  have h0 : n ≠ 0 := by
    rintro rfl
    unfold excess at he
    rw [Nat.log2_zero] at he
    omega
  rw [Nat.le_div_iff_mul_le (Nat.two_pow_pos _), ← pow_add]
  have hexp : p - 1 + excess p n = n.log2 := by
    unfold excess at he ⊢
    omega
  rw [hexp]
  exact Nat.log2_self_le h0

/-- **There is no representable number between two neighbours.** -/
theorem succ_mul_le {p : ℕ} {f : ℚ} (hp : 0 < p) (hf : Representable p f) {q e : ℕ}
    (hq : 2 ^ (p - 1) ≤ q) (h : (q : ℚ) * 2 ^ e < f) : ((q + 1 : ℕ) : ℚ) * 2 ^ e ≤ f := by
  obtain ⟨m, e', hm, rfl⟩ := hf
  have he0 : (0 : ℚ) < 2 ^ e := by positivity
  by_cases hle : (e : ℤ) ≤ e'
  · -- the number is a multiple of the unit
    obtain ⟨k, hk⟩ := Int.eq_ofNat_of_zero_le (show 0 ≤ e' - e by omega)
    have hsplit : (m : ℚ) * 2 ^ e' = ((m * 2 ^ k : ℤ) : ℚ) * 2 ^ e := by
      rw [show e' = (k : ℤ) + (e : ℤ) by omega, zpow_add₀ (by norm_num), zpow_natCast,
        zpow_natCast]
      push_cast
      ring
    rw [hsplit] at h ⊢
    have hlt : (q : ℤ) < m * 2 ^ k := by
      have := lt_of_mul_lt_mul_right h he0.le
      exact_mod_cast this
    have hge : ((q + 1 : ℕ) : ℤ) ≤ m * 2 ^ k := by
      push_cast
      omega
    have hge' : ((q + 1 : ℕ) : ℚ) ≤ ((m * 2 ^ k : ℤ) : ℚ) := by exact_mod_cast hge
    exact mul_le_mul_of_nonneg_right hge' he0.le
  · -- the number has too few bits to be that large
    exfalso
    have hpow : (2 : ℚ) ^ e' ≤ 2 ^ ((e : ℤ) - 1) := zpow_le_zpow_right₀ (by norm_num) (by omega)
    have hm' : (m : ℚ) < 2 ^ p := by
      have := (le_abs_self m).trans_lt hm
      exact_mod_cast this
    have hq' : (2 : ℚ) ^ (p - 1) ≤ q := by exact_mod_cast hq
    have hpp : (2 : ℚ) ^ p = 2 ^ (p - 1) * 2 := by
      rw [← pow_succ]
      congr 1
      omega
    have hee : (2 : ℚ) ^ ((e : ℤ) - 1) * 2 = 2 ^ e := by
      rw [zpow_sub₀ (by norm_num), zpow_natCast, zpow_one]
      field_simp
    have hpos' : (0 : ℚ) < 2 ^ e' := by positivity
    have hm0 : (0 : ℚ) ≤ m := by
      by_contra hneg
      have : (m : ℚ) * 2 ^ e' < 0 := mul_neg_of_neg_of_pos (by linarith) hpos'
      have : (0 : ℚ) ≤ (q : ℚ) * 2 ^ e := by positivity
      linarith
    have hbound : (m : ℚ) * 2 ^ e' ≤ (q : ℚ) * 2 ^ e :=
      calc (m : ℚ) * 2 ^ e' ≤ 2 ^ p * 2 ^ ((e : ℤ) - 1) :=
            mul_le_mul hm'.le hpow hpos'.le (by positivity)
        _ = 2 ^ (p - 1) * 2 ^ e := by rw [hpp, ← hee]; ring
        _ ≤ (q : ℚ) * 2 ^ e := mul_le_mul_of_nonneg_right hq' he0.le
    linarith

section
variable {p : ℕ} {f : ℚ} (hp : 0 < p) (hf : Representable p f)
include hp hf

theorem roundNat_le {n : ℕ} (h : (n : ℚ) ≤ f) : (roundNat p n : ℚ) ≤ f := by
  obtain ⟨-, hup, hself⟩ := roundNat_bounds p n
  by_cases hr : n % 2 ^ excess p n = 0
  · rw [hself hr]
    exact h
  · have he : 0 < excess p n := by
      by_contra he
      rw [show excess p n = 0 by omega] at hr
      exact hr (Nat.mod_one n)
    have hlow : n / 2 ^ excess p n * 2 ^ excess p n < n := by
      have := Nat.div_add_mod n (2 ^ excess p n)
      rw [Nat.mul_comm] at this
      omega
    have hlow' : ((n / 2 ^ excess p n : ℕ) : ℚ) * 2 ^ excess p n < f := by
      have : ((n / 2 ^ excess p n * 2 ^ excess p n : ℕ) : ℚ) < n := by exact_mod_cast hlow
      push_cast at this
      linarith
    have hnext := succ_mul_le hp hf (two_pow_le_div hp he) hlow'
    have hup' : (roundNat p n : ℚ) ≤ ((n / 2 ^ excess p n + 1 : ℕ) : ℚ) * 2 ^ excess p n := by
      exact_mod_cast hup
    exact hup'.trans hnext

theorem le_roundNat {n : ℕ} (h : f ≤ n) : f ≤ roundNat p n := by
  obtain ⟨hdown, -, hself⟩ := roundNat_bounds p n
  by_cases he : excess p n = 0
  · rw [hself (by rw [he]; exact Nat.mod_one n)]
    exact h
  · have hdown' : ((n / 2 ^ excess p n : ℕ) : ℚ) * 2 ^ excess p n ≤ roundNat p n := by
      exact_mod_cast hdown
    refine le_trans (le_of_not_gt fun hlt => ?_) hdown'
    have hnext := succ_mul_le hp hf (two_pow_le_div hp (by omega)) hlt
    have hn : n < (n / 2 ^ excess p n + 1) * 2 ^ excess p n := by
      rw [Nat.mul_comm]
      exact Nat.lt_mul_div_succ n (Nat.two_pow_pos _)
    have hn' : (n : ℚ) < ((n / 2 ^ excess p n + 1 : ℕ) : ℚ) * 2 ^ excess p n := by
      exact_mod_cast hn
    linarith

end

section
variable {p : ℕ} {f : ℚ} (hp : 0 < p) (hf : Representable p f) {n : ℤ}
include hp hf

/-- **Rounding does not pass a representable number** above. -/
theorem roundInt_le (h : (n : ℚ) ≤ f) : (roundInt p n : ℚ) ≤ f := by
  unfold roundInt
  by_cases h0 : 0 ≤ n
  · obtain ⟨k, rfl⟩ := Int.eq_ofNat_of_zero_le h0
    rw [if_pos h0]
    exact_mod_cast roundNat_le hp hf (n := k) (by exact_mod_cast h)
  · obtain ⟨k, hk⟩ := Int.eq_ofNat_of_zero_le (show 0 ≤ -n by omega)
    rw [if_neg h0, hk]
    have hneg : -f ≤ (k : ℚ) := by
      have : ((-n : ℤ) : ℚ) = k := by rw [hk]; rfl
      push_cast at this
      linarith
    have := le_roundNat hp hf.neg hneg
    push_cast
    show -(roundNat p k : ℚ) ≤ f
    linarith

/-- **Rounding does not pass a representable number** below. -/
theorem le_roundInt (h : f ≤ n) : f ≤ roundInt p n := by
  unfold roundInt
  by_cases h0 : 0 ≤ n
  · obtain ⟨k, rfl⟩ := Int.eq_ofNat_of_zero_le h0
    rw [if_pos h0]
    exact_mod_cast le_roundNat hp hf (n := k) (by exact_mod_cast h)
  · obtain ⟨k, hk⟩ := Int.eq_ofNat_of_zero_le (show 0 ≤ -n by omega)
    rw [if_neg h0, hk]
    have hneg : (k : ℚ) ≤ -f := by
      have : ((-n : ℤ) : ℚ) = k := by rw [hk]; rfl
      push_cast at this
      linarith
    have := roundNat_le hp hf.neg hneg
    push_cast
    show f ≤ -(roundNat p k : ℚ)
    linarith

end

end Xcl.Rounding
