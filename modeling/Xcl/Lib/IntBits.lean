import Mathlib.Data.Int.Bitwise
import Mathlib.Data.Nat.Bitwise
import Mathlib.Data.Nat.Size
import Mathlib.Tactic

/-!
# Bitwise operations on integers

The operations are those on the infinite two's complement representation.
-/

namespace Xcl.IntBits

theorem ldiff_le (m n : ℕ) : Nat.ldiff m n ≤ m := by
  have h : Nat.ldiff m n ||| (m &&& n) = m := by
    refine Nat.eq_of_testBit_eq fun i => ?_
    rw [Nat.testBit_or, Nat.testBit_ldiff, Nat.testBit_and]
    cases m.testBit i <;> cases n.testBit i <;> rfl
  calc Nat.ldiff m n ≤ Nat.ldiff m n ||| (m &&& n) := Nat.left_le_or
    _ = m := h

theorem land_comm (a b : ℤ) : Int.land a b = Int.land b a := by
  cases a with
  | ofNat m =>
    cases b with
    | ofNat n => simp [Int.land, Nat.and_comm]
    | negSucc n => rfl
  | negSucc m =>
    cases b with
    | ofNat n => rfl
    | negSucc n => simp [Int.land, Nat.or_comm]

theorem ldiff_zero (m : ℕ) : Nat.ldiff m 0 = m := by
  refine Nat.eq_of_testBit_eq fun i => ?_
  rw [Nat.testBit_ldiff, Nat.zero_testBit, Bool.not_false, Bool.and_true]

theorem land_neg_one (a : ℤ) : Int.land a (-1) = a := by
  cases a with
  | ofNat m => exact congrArg Int.ofNat (ldiff_zero m)
  | negSucc m => exact congrArg Int.negSucc (Nat.or_zero m)

theorem lor_zero (a : ℤ) : Int.lor a 0 = a := by
  cases a with
  | ofNat m => exact congrArg Int.ofNat (Nat.or_zero m)
  | negSucc m => exact congrArg Int.negSucc (ldiff_zero m)

theorem xor_zero (a : ℤ) : Int.xor a 0 = a := by
  cases a with
  | ofNat m => exact congrArg Int.ofNat (Nat.xor_zero m)
  | negSucc m => exact congrArg Int.negSucc (Nat.xor_zero m)

theorem land_nonneg {a : ℤ} (ha : 0 ≤ a) (b : ℤ) : 0 ≤ Int.land a b := by
  obtain ⟨m, rfl⟩ := Int.eq_ofNat_of_zero_le ha
  cases b with
  | ofNat n => exact Int.natCast_nonneg _
  | negSucc n => exact Int.natCast_nonneg _

theorem land_le {a : ℤ} (ha : 0 ≤ a) (b : ℤ) : Int.land a b ≤ a := by
  obtain ⟨m, rfl⟩ := Int.eq_ofNat_of_zero_le ha
  cases b with
  | ofNat n => exact Int.ofNat_le.mpr Nat.and_le_left
  | negSucc n => exact Int.ofNat_le.mpr (ldiff_le m n)

theorem lor_lt_two_pow {a b : ℤ} {k : ℕ} (ha : 0 ≤ a) (hb : 0 ≤ b) (ha' : a < 2 ^ k)
    (hb' : b < 2 ^ k) : 0 ≤ Int.lor a b ∧ Int.lor a b < 2 ^ k := by
  obtain ⟨m, rfl⟩ := Int.eq_ofNat_of_zero_le ha
  obtain ⟨n, rfl⟩ := Int.eq_ofNat_of_zero_le hb
  have hm : m < 2 ^ k := by exact_mod_cast ha'
  have hn : n < 2 ^ k := by exact_mod_cast hb'
  have h : ((m ||| n : ℕ) : ℤ) < 2 ^ k := by exact_mod_cast Nat.or_lt_two_pow hm hn
  exact ⟨Int.natCast_nonneg _, h⟩

theorem xor_lt_two_pow {a b : ℤ} {k : ℕ} (ha : 0 ≤ a) (hb : 0 ≤ b) (ha' : a < 2 ^ k)
    (hb' : b < 2 ^ k) : 0 ≤ Int.xor a b ∧ Int.xor a b < 2 ^ k := by
  obtain ⟨m, rfl⟩ := Int.eq_ofNat_of_zero_le ha
  obtain ⟨n, rfl⟩ := Int.eq_ofNat_of_zero_le hb
  have hm : m < 2 ^ k := by exact_mod_cast ha'
  have hn : n < 2 ^ k := by exact_mod_cast hb'
  have h : ((m ^^^ n : ℕ) : ℤ) < 2 ^ k := by exact_mod_cast Nat.xor_lt_two_pow hm hn
  exact ⟨Int.natCast_nonneg _, h⟩

/-- The integers of a word of `k + 1` bits. -/
def InWord (k : ℕ) (a : ℤ) : Prop := -2 ^ k ≤ a ∧ a < 2 ^ k

theorem inWord_ofNat {k m : ℕ} : InWord k (Int.ofNat m) ↔ m < 2 ^ k := by
  have hcast : (2 : ℤ) ^ k = ((2 ^ k : ℕ) : ℤ) := by push_cast; rfl
  rw [InWord, hcast, Int.ofNat_eq_natCast]
  omega

theorem inWord_negSucc {k m : ℕ} : InWord k (Int.negSucc m) ↔ m < 2 ^ k := by
  have hcast : (2 : ℤ) ^ k = ((2 ^ k : ℕ) : ℤ) := by push_cast; rfl
  rw [InWord, hcast, Int.negSucc_eq]
  omega

/-- **A word is closed** under the operations. -/
theorem lor_inWord {k : ℕ} {a b : ℤ} (ha : InWord k a) (hb : InWord k b) :
    InWord k (Int.lor a b) := by
  cases a with
  | ofNat m =>
    rw [inWord_ofNat] at ha
    cases b with
    | ofNat n =>
      rw [inWord_ofNat] at hb
      exact inWord_ofNat.mpr (Nat.or_lt_two_pow ha hb)
    | negSucc n =>
      rw [inWord_negSucc] at hb
      exact inWord_negSucc.mpr ((ldiff_le n m).trans_lt hb)
  | negSucc m =>
    rw [inWord_negSucc] at ha
    cases b with
    | ofNat n => exact inWord_negSucc.mpr ((ldiff_le m n).trans_lt ha)
    | negSucc n => exact inWord_negSucc.mpr (Nat.and_le_left.trans_lt ha)

theorem xor_inWord {k : ℕ} {a b : ℤ} (ha : InWord k a) (hb : InWord k b) :
    InWord k (Int.xor a b) := by
  cases a with
  | ofNat m =>
    rw [inWord_ofNat] at ha
    cases b with
    | ofNat n =>
      rw [inWord_ofNat] at hb
      exact inWord_ofNat.mpr (Nat.xor_lt_two_pow ha hb)
    | negSucc n =>
      rw [inWord_negSucc] at hb
      exact inWord_negSucc.mpr (Nat.xor_lt_two_pow ha hb)
  | negSucc m =>
    rw [inWord_negSucc] at ha
    cases b with
    | ofNat n =>
      rw [inWord_ofNat] at hb
      exact inWord_negSucc.mpr (Nat.xor_lt_two_pow ha hb)
    | negSucc n =>
      rw [inWord_negSucc] at hb
      exact inWord_ofNat.mpr (Nat.xor_lt_two_pow ha hb)

theorem land_inWord {k : ℕ} {a b : ℤ} (ha : InWord k a) (hb : InWord k b) :
    InWord k (Int.land a b) := by
  cases a with
  | ofNat m =>
    rw [inWord_ofNat] at ha
    cases b with
    | ofNat n => exact inWord_ofNat.mpr (Nat.and_le_left.trans_lt ha)
    | negSucc n => exact inWord_ofNat.mpr ((ldiff_le m n).trans_lt ha)
  | negSucc m =>
    rw [inWord_negSucc] at ha
    cases b with
    | ofNat n =>
      rw [inWord_ofNat] at hb
      exact inWord_ofNat.mpr ((ldiff_le n m).trans_lt hb)
    | negSucc n =>
      rw [inWord_negSucc] at hb
      exact inWord_negSucc.mpr (Nat.or_lt_two_pow ha hb)

theorem lnot_inWord {k : ℕ} {a : ℤ} (ha : InWord k a) : InWord k (Int.lnot a) := by
  cases a with
  | ofNat m => exact inWord_negSucc.mpr (inWord_ofNat.mp ha)
  | negSucc m => exact inWord_ofNat.mpr (inWord_negSucc.mp ha)

theorem lor_comm (a b : ℤ) : Int.lor a b = Int.lor b a := by
  cases a with
  | ofNat m =>
    cases b with
    | ofNat n => exact congrArg Int.ofNat (Nat.or_comm m n)
    | negSucc n => rfl
  | negSucc m =>
    cases b with
    | ofNat n => rfl
    | negSucc n => exact congrArg Int.negSucc (Nat.and_comm m n)

theorem xor_comm (a b : ℤ) : Int.xor a b = Int.xor b a := by
  cases a with
  | ofNat m =>
    cases b with
    | ofNat n => exact congrArg Int.ofNat (Nat.xor_comm m n)
    | negSucc n => exact congrArg Int.negSucc (Nat.xor_comm m n)
  | negSucc m =>
    cases b with
    | ofNat n => exact congrArg Int.negSucc (Nat.xor_comm m n)
    | negSucc n => exact congrArg Int.ofNat (Nat.xor_comm m n)

theorem lnot_xor_neg_one (a : ℤ) : Int.lnot (Int.xor (-1) a) = a := by
  cases a with
  | ofNat m => exact congrArg Int.ofNat (Nat.zero_xor m)
  | negSucc m => exact congrArg Int.negSucc (Nat.zero_xor m)

/-- Bits above those of a non-negative integer that is set do not get an integer into a word. -/
theorem inWord_of_lor {k : ℕ} {a b : ℤ} (ha : 0 ≤ a) (ha' : InWord k a)
    (h : InWord k (Int.lor a b)) : InWord k b := by
  obtain ⟨m, rfl⟩ := Int.eq_ofNat_of_zero_le ha
  have hm : m < 2 ^ k := inWord_ofNat.mp ha'
  cases b with
  | ofNat n =>
    have hor : m ||| n < 2 ^ k := inWord_ofNat.mp h
    exact inWord_ofNat.mpr (Nat.right_le_or.trans_lt hor)
  | negSucc n =>
    have hdiff : Nat.ldiff n m < 2 ^ k := inWord_negSucc.mp h
    have hn : Nat.ldiff n m ||| m < 2 ^ k := Nat.or_lt_two_pow hdiff hm
    have hle : n ≤ Nat.ldiff n m ||| m := by
      have hor : n ||| (Nat.ldiff n m ||| m) = Nat.ldiff n m ||| m := by
        refine Nat.eq_of_testBit_eq fun i => ?_
        rw [Nat.testBit_or, Nat.testBit_or, Nat.testBit_ldiff]
        cases n.testBit i <;> cases m.testBit i <;> rfl
      rw [← hor]
      exact Nat.left_le_or
    exact inWord_negSucc.mpr (hle.trans_lt hn)

/-! ## The low bits of an integer -/

/-- The low `k` bits, with the sign of the integer. -/
def lowBits (k : ℕ) : ℤ → ℤ
  | .ofNat m => .ofNat (m % 2 ^ k)
  | .negSucc m => .negSucc (m % 2 ^ k)

theorem land_lowBits {k : ℕ} {a : ℤ} (ha : 0 ≤ a) (ha' : a < 2 ^ k) (b : ℤ) :
    Int.land a (lowBits k b) = Int.land a b := by
  obtain ⟨m, rfl⟩ := Int.eq_ofNat_of_zero_le ha
  have hm : m < 2 ^ k := by exact_mod_cast ha'
  have hbit : ∀ i, m.testBit i = true → i < k := by
    intro i hi
    by_contra hki
    have hlt : m < 2 ^ i := hm.trans_le (Nat.pow_le_pow_right (by decide) (by omega))
    rw [Nat.testBit_lt_two_pow hlt] at hi
    exact absurd hi (by decide)
  cases b with
  | ofNat n =>
    refine congrArg Int.ofNat (Nat.eq_of_testBit_eq fun i => ?_)
    rw [Nat.testBit_and, Nat.testBit_and, Nat.testBit_mod_two_pow]
    cases hmi : m.testBit i with
    | false => rfl
    | true => rw [decide_eq_true (hbit i hmi), Bool.true_and]
  | negSucc n =>
    refine congrArg Int.ofNat (Nat.eq_of_testBit_eq fun i => ?_)
    rw [Nat.testBit_ldiff, Nat.testBit_ldiff, Nat.testBit_mod_two_pow]
    cases hmi : m.testBit i with
    | false => rfl
    | true =>
      rw [decide_eq_true (hbit i hmi)]
      rfl

/-! ## Shifted operands -/

theorem four_mul (a : ℤ) : 4 * a = Int.bit false (Int.bit false a) := by
  rw [Int.bit_val, Int.bit_val]
  show 4 * a = 2 * (2 * a + 0) + 0
  ring

theorem land_four_mul (a b : ℤ) : Int.land (4 * a) (4 * b) = 4 * Int.land a b := by
  rw [four_mul, four_mul, four_mul, Int.land_bit, Int.land_bit, Bool.and_false]

theorem lor_four_mul (a b : ℤ) : Int.lor (4 * a) (4 * b) = 4 * Int.lor a b := by
  rw [four_mul, four_mul, four_mul, Int.lor_bit, Int.lor_bit, Bool.or_false]

end Xcl.IntBits
