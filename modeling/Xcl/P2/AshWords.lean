import Xcl.P2.Ash

/-!
# Words and the kernel function of inline `ASH`

* **`clAsh_eq`**: the kernel function shifts exactly.
-/

namespace Xcl.P2.Ash

open X86 FlatCode
open Numbers (InFixnumRange)
open Shift (ash ash_of_nonneg ash_of_nonpos)

/-! ## Words -/

theorem inFixnumRange_iff {n : ℤ} : InFixnumRange n ↔ -2 ^ 61 ≤ n ∧ n < 2 ^ 61 := by
  unfold InFixnumRange Numbers.mostNegativeFixnum Numbers.mostPositiveFixnum
  omega

theorem sshiftRight_eq_ofInt (w : Word) (k : ℕ) :
    w.sshiftRight k = BitVec.ofInt 64 (w.toInt / 2 ^ k) := by
  have h : (w.sshiftRight k).toInt = w.toInt / 2 ^ k := by
    rw [BitVec.toInt_sshiftRight, Int.shiftRight_eq_div_pow]
    norm_cast
  rw [← h, BitVec.ofInt_toInt]

theorem ofInt_shiftLeft (a : ℤ) (k : ℕ) :
    BitVec.ofInt 64 a <<< k = BitVec.ofInt 64 (a * 2 ^ k) := by
  have h : BitVec.twoPow 64 k = BitVec.ofInt 64 (2 ^ k) := by
    rw [← BitVec.toNat_inj, BitVec.toNat_twoPow, BitVec.toNat_ofInt]
    norm_cast
  rw [BitVec.shiftLeft_eq_mul_twoPow, BitVec.ofInt_mul, h]

theorem toInt_ofInt {n : ℤ} (hlo : -2 ^ 63 ≤ n) (hhi : n < 2 ^ 63) :
    (BitVec.ofInt 64 n).toInt = n :=
  BitVec.toInt_ofInt_eq_self (by norm_num) (by simpa using hlo) (by simpa using hhi)

theorem toNat_ofInt {n : ℤ} (hlo : 0 ≤ n) (hhi : n < 2 ^ 64) :
    (BitVec.ofInt 64 n).toNat = n.toNat := by
  rw [BitVec.toNat_ofInt]
  omega

theorem maskByte_eq (w : Word) : maskByte 0xfc w = BitVec.ofInt 64 (w.toInt / 4 * 4) := by
  have h : maskByte 0xfc w = w.sshiftRight 2 <<< 2 := by
    refine BitVec.eq_of_getLsbD_eq fun i hi => ?_
    have hmask : ∀ j < 64,
        ((0xfc : BitVec 8).setWidth 64 ||| ~~~(255 : Word)).getLsbD j = decide (2 ≤ j) := by
      decide
    rw [maskByte, BitVec.getLsbD_and, hmask i hi, BitVec.getLsbD_shiftLeft,
      BitVec.getLsbD_sshiftRight]
    by_cases h2 : 2 ≤ i
    · have hindex : 2 + (i - 2) = i := by omega
      simp [h2, hi, hindex, show ¬i < 2 by omega, show ¬64 ≤ i - 2 by omega]
    · simp [h2, show i < 2 by omega]
  rw [h, sshiftRight_eq_ofInt, ofInt_shiftLeft]
  norm_num

section Fixnum

variable {n : ℤ} (hn : InFixnumRange n)

include hn

theorem toInt_fixnumize_of_range : (fixnumize n).toInt = n * 4 := by
  rw [inFixnumRange_iff] at hn
  exact toInt_fixnumize hn.1 hn.2

theorem maskByte_sshiftRight_fixnumize (k : ℕ) :
    maskByte 0xfc ((fixnumize n).sshiftRight k) = fixnumize (n / 2 ^ k) := by
  have hpos : (0 : ℤ) < 2 ^ k := by positivity
  have hshift : ((fixnumize n).sshiftRight k).toInt = n * 4 / 2 ^ k := by
    rw [BitVec.toInt_sshiftRight, Int.shiftRight_eq_div_pow, toInt_fixnumize_of_range hn]
    norm_cast
  have hdiv : n * 4 / 2 ^ k / 4 = n / 2 ^ k := by
    rw [Int.ediv_ediv_of_nonneg hpos.le, mul_comm ((2 : ℤ) ^ k) 4, mul_comm n 4,
      Int.mul_ediv_mul_of_pos _ _ (by norm_num)]
  rw [maskByte_eq, hshift, hdiv, fixnumize]

theorem unbox_fixnumize : (fixnumize n).sshiftRight 2 = BitVec.ofInt 64 n := by
  have h : n * 4 / 2 ^ 2 = n := by omega
  rw [sshiftRight_eq_ofInt, toInt_fixnumize_of_range hn, h]

theorem toInt_unboxed : (BitVec.ofInt 64 n).toInt = n := by
  rw [inFixnumRange_iff] at hn
  exact toInt_ofInt (by omega) (by omega)

theorem fixnump_fixnumize : fixnump (fixnumize n) = true := by
  have h := toInt_fixnumize_of_range hn
  have hmod := toInt_emod_four (fixnumize n)
  rw [fixnump_iff]
  omega

theorem fixnumValue_fixnumize : fixnumValue (fixnumize n) = n := by
  rw [fixnumValue_eq, toInt_fixnumize_of_range hn]
  omega

end Fixnum

theorem fixnumize_shiftLeft (n : ℤ) (k : ℕ) : fixnumize n <<< k = fixnumize (n * 2 ^ k) := by
  rw [fixnumize, ofInt_shiftLeft, fixnumize, mul_right_comm]

theorem box_ofInt (n : ℤ) : BitVec.ofInt 64 n <<< 2 = fixnumize n := by
  rw [ofInt_shiftLeft, fixnumize]
  norm_num

theorem count_ofInt {shift : ℤ} (hlo : 0 ≤ shift) (hhi : shift < 64) :
    (BitVec.ofInt 64 shift).toNat % 64 = shift.toNat := by
  rw [toNat_ofInt hlo (by omega)]
  omega

theorem and_overflowMask_eq_zero_iff (w : Word) : w &&& overflowMask = 0 ↔ w.toNat < 2 ^ 61 := by
  have h : w &&& overflowMask = (w >>> 61) <<< 61 := by
    refine BitVec.eq_of_getLsbD_eq fun i hi => ?_
    have hmask : ∀ j < 64, overflowMask.getLsbD j = decide (61 ≤ j) := by decide
    rw [BitVec.getLsbD_and, hmask i hi, BitVec.getLsbD_shiftLeft, BitVec.getLsbD_ushiftRight]
    by_cases h61 : 61 ≤ i
    · simp [h61, hi, show ¬i < 61 by omega]
    · simp [h61, show i < 61 by omega]
  have hlt := w.isLt
  have hzero : (0 : Word).toNat = 0 := rfl
  rw [h, ← BitVec.toNat_inj, BitVec.toNat_shiftLeft, BitVec.toNat_ushiftRight,
    Nat.shiftRight_eq_div_pow, Nat.shiftLeft_eq, hzero]
  omega

/-! ## The kernel -/

/-- The largest size of an integer of the library, in bits. -/
def maxBits : ℕ := 64 * (2 ^ 31 - 1)

def LispInteger (n : ℤ) : Prop := n.natAbs < 2 ^ maxBits

theorem lispInteger_of_lt {n : ℤ} (h : n.natAbs < 2 ^ 64) : LispInteger n :=
  h.trans_le (Nat.pow_le_pow_right (by norm_num) (by norm_num [maxBits]))

theorem maxBits_lt : maxBits < 2 ^ 61 := by
  norm_num [maxBits]

theorem ediv_two_pow_eq {x : ℤ} {k : ℕ} (h : x.natAbs ≤ 2 ^ k) (hx : x ≠ 2 ^ k) :
    x / 2 ^ k = if 0 ≤ x then 0 else -1 := by
  have hpos : (0 : ℤ) < 2 ^ k := by positivity
  have habs : |x| ≤ 2 ^ k := by
    rw [Int.abs_eq_natAbs]
    exact_mod_cast h
  obtain ⟨hlo, hhi⟩ := abs_le.mp habs
  split_ifs with hsign
  · exact Int.ediv_eq_zero_of_lt hsign (lt_of_le_of_ne hhi hx)
  · refine le_antisymm (Int.le_of_lt_add_one ?_) ((Int.le_ediv_iff_mul_le hpos).mpr (by omega))
    exact (Int.ediv_lt_iff_lt_mul hpos).mpr (by omega)

theorem ashFixnums_eq {n shift value : ℤ} (hn : InFixnumRange n) (hs : InFixnumRange shift)
    (h : ashFixnums n shift = some value) : value = ash n shift := by
  rw [inFixnumRange_iff] at hn hs
  unfold ashFixnums at h
  split_ifs at h with hpos hword hsmall hright hsign <;> cases h
  · -- a product of 32-bit integers
    have hle : (2 : ℤ) ^ shift.toNat ≤ 2 ^ 32 := pow_le_pow_right₀ (by norm_num) (by omega)
    have hpow : (0 : ℤ) < 2 ^ shift.toNat := by positivity
    have hprod : n * 2 ^ shift.toNat < 2 ^ 64 := by nlinarith
    rw [ofInt_shiftLeft, toNat_ofInt (by nlinarith) hprod, ash_of_nonneg hpos.le]
    exact Int.toNat_of_nonneg (by nlinarith)
  · have hle : (2 : ℤ) ^ shift.toNat ≤ 2 ^ 2 := pow_le_pow_right₀ (by norm_num) (by omega)
    have hpow : (0 : ℤ) < 2 ^ shift.toNat := by positivity
    rw [ofInt_shiftLeft, toInt_ofInt (by nlinarith) (by nlinarith), ash_of_nonneg hpos.le]
  · rw [BitVec.toInt_sshiftRight, toInt_ofInt (by omega) (by omega), Int.shiftRight_eq_div_pow,
      ash_of_nonpos (by omega)]
    norm_cast
  all_goals
    have hle : (2 : ℕ) ^ 61 ≤ 2 ^ (-shift).toNat := Nat.pow_le_pow_right (by norm_num) (by omega)
    have hne : n ≠ 2 ^ (-shift).toNat := by
      have : (2 : ℤ) ^ 61 ≤ 2 ^ (-shift).toNat := by exact_mod_cast hle
      omega
    rw [ash_of_nonpos (by omega), ediv_two_pow_eq (le_trans (by omega) hle) hne]
  · rw [if_pos hsign]
  · rw [if_neg hsign]

theorem ashMpz_of_fixnum {shift : ℤ} (x : ℤ) (hs : InFixnumRange shift) :
    ashMpz x shift = some (ash x shift) := by
  rw [ashMpz, if_pos hs]
  split_ifs with hsign
  · rw [ash_of_nonneg hsign]
  · rw [ash_of_nonpos (by omega)]

theorem ashMpz_eq {x shift : ℤ} (hx : LispInteger x) (hx0 : x ≠ 0)
    (hr : LispInteger (ash x shift)) : ashMpz x shift = some (ash x shift) := by
  by_cases hfix : InFixnumRange shift
  · exact ashMpz_of_fixnum x hfix
  · rw [ashMpz, if_neg hfix]
    have hbits := maxBits_lt
    rw [inFixnumRange_iff] at hfix
    by_cases hpos : 0 < shift
    · rw [LispInteger, ash_of_nonneg hpos.le, Int.natAbs_mul, Int.natAbs_pow] at hr
      have hle : 2 ^ maxBits ≤ 2 ^ shift.toNat := Nat.pow_le_pow_right (by norm_num) (by omega)
      have hmul : 2 ^ shift.toNat ≤ x.natAbs * 2 ^ shift.toNat :=
        Nat.le_mul_of_pos_left _ (by omega)
      exact absurd hr (not_lt.mpr (hle.trans hmul))
    · have hlt : x.natAbs < 2 ^ (-shift).toNat :=
        lt_of_lt_of_le hx (Nat.pow_le_pow_right (by norm_num) (by omega))
      have hne : x ≠ 2 ^ (-shift).toNat := by
        rintro rfl
        simp at hlt
      rw [if_neg hpos, ash_of_nonpos (by omega), ediv_two_pow_eq hlt.le hne]

theorem clAsh_of_ashMpz {x shift : ℤ} (h : x ≠ 0 → ashMpz x shift = some (ash x shift)) :
    clAsh x shift = some (ash x shift) := by
  unfold clAsh
  by_cases hs : shift = 0
  · rw [if_pos hs, hs, ash_of_nonneg le_rfl]
    simp
  · rw [if_neg hs]
    by_cases hx0 : x = 0
    · rw [if_pos hx0, hx0]
      simp [ash]
    · rw [if_neg hx0]
      split_ifs with hfix
      · cases hfast : ashFixnums x shift with
        | none => exact h hx0
        | some value => rw [ashFixnums_eq hfix.1 hfix.2 hfast, Option.some_or]
      · exact h hx0

theorem clAsh_eq {x shift : ℤ} (hx : LispInteger x) (hr : LispInteger (ash x shift)) :
    clAsh x shift = some (ash x shift) :=
  clAsh_of_ashMpz fun hx0 => ashMpz_eq hx hx0 hr

theorem value_eq_of_fixnum {x shift value : ℤ} (hs : InFixnumRange shift)
    (hk : clAsh x shift = some value) : value = ash x shift := by
  rw [clAsh_of_ashMpz fun _ => ashMpz_of_fixnum x hs] at hk
  exact (Option.some.inj hk).symm

/-! ## Objects -/

variable {x shift n : ℤ}

theorem object_of_range (hn : InFixnumRange n) : object n = .word (fixnumize n) := if_pos hn

theorem integer_object (n : ℤ) : (object n).integer = some n := by
  unfold object
  split_ifs with h
  · rw [Contents.integer, if_pos (fixnump_fixnumize h), fixnumValue_fixnumize h]
  · rfl

theorem nz_testFlags_object (n : ℤ) :
    Cond.holds (testFlags (object n).lowByte 3) .nz = decide (¬InFixnumRange n) := by
  rw [holds_nz_testFlags]
  by_cases h : InFixnumRange n
  · rw [object_of_range h, Contents.lowByte, and_three_eq, fixnump_fixnumize h]
    simp [h]
  · rw [object, if_neg h]
    simp [h, Contents.lowByte, lowtagTypedObject]

theorem inFixnumRange_ash (hx : InFixnumRange x) (hs : shift ≤ 0) :
    InFixnumRange (ash x shift) := by
  rw [inFixnumRange_iff] at hx ⊢
  have hpow : (1 : ℤ) ≤ 2 ^ (-shift).toNat := one_le_pow₀ (by norm_num)
  rw [ash_of_nonpos hs]
  constructor
  · rw [Int.le_ediv_iff_mul_le (by omega)]
    nlinarith
  · rw [Int.ediv_lt_iff_lt_mul (by omega)]
    nlinarith

end Xcl.P2.Ash
