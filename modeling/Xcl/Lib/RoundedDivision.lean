import Mathlib.Algebra.Order.Floor.Ring
import Mathlib.Algebra.Order.Archimedean.Basic
import Mathlib.Data.Rat.Floor
import Mathlib.Tactic

/-!
# Division of integers with rounding

A quotient and a remainder of two integers, by the side on which the remainder lies:

* `FloorQr`, `CeilQr`, `TruncateQr`; each of them determines the rounded quotient
  (`FloorQr.floor_eq`, `CeilQr.ceil_eq`, **`TruncateQr.truncate_eq`**).
-/

namespace Xcl.RoundedDivision

/-- Rounded toward zero. -/
def truncate (x : ℚ) : ℤ := if 0 ≤ x then ⌊x⌋ else ⌈x⌉

/-- `q` is a nearest integer to `x`, and the even one if there are two. -/
def NearestEven (x : ℚ) (q : ℤ) : Prop := |x - q| ≤ 1 / 2 ∧ (|x - q| = 1 / 2 → Even q)

/-- The remainder has the sign of the divisor. -/
structure FloorQr (n d q r : ℤ) : Prop where
  eq : n = q * d + r
  side : (0 ≤ r ∧ r < d) ∨ (d < r ∧ r ≤ 0)

/-- The remainder has the other sign. -/
structure CeilQr (n d q r : ℤ) : Prop where
  eq : n = q * d + r
  side : (-d < r ∧ r ≤ 0) ∨ (0 ≤ r ∧ r < -d)

/-- The remainder has the sign of the dividend. -/
structure TruncateQr (n d q r : ℤ) : Prop where
  eq : n = q * d + r
  side : (0 ≤ n ∧ 0 ≤ r ∧ r < |d|) ∨ (n ≤ 0 ∧ -|d| < r ∧ r ≤ 0)

variable {n d q r : ℤ}

/-! ## The rounded quotients -/

theorem FloorQr.floor_eq (h : FloorQr n d q r) : ⌊(n : ℚ) / d⌋ = q := by
  have hn : (n : ℚ) = q * d + r := by exact_mod_cast h.eq
  rw [Int.floor_eq_iff, hn]
  rcases h.side with ⟨h₀, h₁⟩ | ⟨h₁, h₀⟩
  · have hd : (0 : ℚ) < d := by exact_mod_cast h₀.trans_lt h₁
    have h₀' : (0 : ℚ) ≤ r := by exact_mod_cast h₀
    have h₁' : (r : ℚ) < d := by exact_mod_cast h₁
    rw [le_div_iff₀ hd, div_lt_iff₀ hd]
    constructor <;> linarith
  · have hd : (d : ℚ) < 0 := by exact_mod_cast h₁.trans_le h₀
    have h₀' : (r : ℚ) ≤ 0 := by exact_mod_cast h₀
    have h₁' : (d : ℚ) < r := by exact_mod_cast h₁
    rw [le_div_iff_of_neg hd, div_lt_iff_of_neg hd]
    constructor <;> linarith

theorem CeilQr.neg (h : CeilQr n d q r) : FloorQr (-n) d (-q) (-r) where
  eq := by
    rw [h.eq]
    ring
  side := by
    rcases h.side with ⟨h₁, h₀⟩ | ⟨h₀, h₁⟩
    · left
      omega
    · right
      omega

theorem CeilQr.ceil_eq (h : CeilQr n d q r) : ⌈(n : ℚ) / d⌉ = q := by
  have hfloor := h.neg.floor_eq
  rw [Int.cast_neg, neg_div, Int.floor_neg] at hfloor
  omega

theorem TruncateQr.floorQr (h : TruncateQr n d q r) (hsign : 0 ≤ (n : ℚ) / d) (hd : d ≠ 0) :
    FloorQr n d q r where
  eq := h.eq
  side := by
    rcases lt_or_gt_of_ne hd with hneg | hpos
    · have hd' : (d : ℚ) < 0 := by exact_mod_cast hneg
      have hn' : (n : ℚ) ≤ 0 := by
        rw [le_div_iff_of_neg hd', zero_mul] at hsign
        exact hsign
      have hn : n ≤ 0 := by exact_mod_cast hn'
      rcases h.side with ⟨h₀, h₁, h₂⟩ | ⟨h₀, h₁, h₂⟩
      · -- the dividend is zero
        have hn0 : n = 0 := le_antisymm hn h₀
        have hr := h.eq
        rw [hn0] at hr
        rw [abs_of_neg hneg] at h₂
        have hq : q = 0 := by
          by_contra hq
          rcases lt_or_gt_of_ne hq with hq | hq <;> nlinarith
        rw [hq, zero_mul, zero_add] at hr
        omega
      · rw [abs_of_neg hneg] at h₁
        omega
    · have hd' : (0 : ℚ) < d := by exact_mod_cast hpos
      have hn' : (0 : ℚ) ≤ n := by
        rw [le_div_iff₀ hd', zero_mul] at hsign
        exact hsign
      have hn : 0 ≤ n := by exact_mod_cast hn'
      rcases h.side with ⟨h₀, h₁, h₂⟩ | ⟨h₀, h₁, h₂⟩
      · rw [abs_of_pos hpos] at h₂
        omega
      · have hn0 : n = 0 := le_antisymm h₀ hn
        have hr := h.eq
        rw [hn0] at hr
        rw [abs_of_pos hpos] at h₁
        have hq : q = 0 := by
          by_contra hq
          rcases lt_or_gt_of_ne hq with hq | hq <;> nlinarith
        rw [hq, zero_mul, zero_add] at hr
        omega

theorem TruncateQr.ceilQr (h : TruncateQr n d q r) (hsign : (n : ℚ) / d < 0) :
    CeilQr n d q r where
  eq := h.eq
  side := by
    rcases div_neg_iff.mp hsign with ⟨hn, hd⟩ | ⟨hn, hd⟩
    · have hn' : 0 < n := by exact_mod_cast hn
      have hd' : d < 0 := by exact_mod_cast hd
      have hside := h.side
      rw [abs_of_neg hd'] at hside
      omega
    · have hn' : n < 0 := by exact_mod_cast hn
      have hd' : 0 < d := by exact_mod_cast hd
      have hside := h.side
      rw [abs_of_pos hd'] at hside
      omega

theorem TruncateQr.truncate_eq (h : TruncateQr n d q r) (hd : d ≠ 0) :
    truncate ((n : ℚ) / d) = q := by
  unfold truncate
  split_ifs with hsign
  · exact (h.floorQr hsign hd).floor_eq
  · exact (h.ceilQr (not_le.mp hsign)).ceil_eq

/-! ## The divisions -/

theorem floorQr_fdiv (n : ℤ) (hd : d ≠ 0) : FloorQr n d (n.fdiv d) (n.fmod d) where
  eq := (Int.fdiv_mul_add_fmod n d).symm
  side := by
    rcases lt_or_gt_of_ne hd with hneg | hpos
    · right
      have h₀ := Int.fmod_nonneg_of_pos (-n) (Int.neg_pos_of_neg hneg)
      have h₁ := Int.fmod_lt_of_pos (-n) (Int.neg_pos_of_neg hneg)
      rw [Int.neg_fmod_neg] at h₀ h₁
      omega
    · exact .inl ⟨Int.fmod_nonneg_of_pos n hpos, Int.fmod_lt_of_pos n hpos⟩

theorem ceilQr_fdiv (n : ℤ) (hd : d ≠ 0) : CeilQr n d (-(-n).fdiv d) (-(-n).fmod d) where
  eq := by
    have h := (floorQr_fdiv (-n) hd).eq
    linarith
  side := by
    rcases (floorQr_fdiv (-n) hd).side with h | h
    · left
      omega
    · right
      omega

theorem truncateQr_tdiv (n : ℤ) (hd : d ≠ 0) : TruncateQr n d (n.tdiv d) (n.tmod d) where
  eq := (Int.tdiv_mul_add_tmod n d).symm
  side := by
    have hpos : 0 < |d| := abs_pos.mpr hd
    have hmod : n.tmod |d| = n.tmod d := by
      rcases abs_choice d with h | h
      · rw [h]
      · rw [h, Int.tmod_neg]
    rw [← hmod]
    rcases le_total 0 n with hn | hn
    · exact .inl ⟨hn, Int.tmod_nonneg _ hn, Int.tmod_lt_of_pos n hpos⟩
    · have hneg := Int.tmod_nonneg (a := -n) |d| (by omega)
      rw [Int.neg_tmod] at hneg
      exact .inr ⟨hn, Int.lt_tmod_of_pos n hpos, by omega⟩

end Xcl.RoundedDivision
