import Xcl.Numbers.Model
import Mathlib.Data.Complex.Basic

/-!
# The arithmetic is exact

* `Represents`: a canonical representation of a rational number; there is only one
  (`Represents.unique`);
* **`exact_iff`**: the operations on all numbers give the canonical representation of the result,
  except when a complex number is subtracted from a bignum or a ratio;
* **`sums_represent`**: sums of several numbers.
-/

namespace Xcl.Numbers

/-! ## Representations -/

/-- `x` is the canonical representation of `r`. -/
def Represents (x : Rational) (r : ℚ) : Prop := x.Canonical ∧ x.value = r

theorem represents_value {x : Rational} (hx : x.Canonical) : Represents x x.value := ⟨hx, rfl⟩

namespace Mpq

theorem toRat_ofRat (r : ℚ) : (ofRat r).toRat = r := Rat.num_div_den r

theorem toRat_ofInt (n : ℤ) : (ofInt n).toRat = n := by
  rw [toRat, ofInt, Nat.cast_one, div_one]

theorem toRat_neg (q : Mpq) : q.neg.toRat = -q.toRat := by
  rw [toRat, toRat, neg, Int.cast_neg, neg_div]

/-- A fraction in lowest terms is the only one for its value. -/
theorem ofRat_toRat {q : Mpq} (hd : 0 < q.den) (hq : q.num.natAbs.Coprime q.den) :
    ofRat q.toRat = q := by
  have hd' : (0 : ℤ) < q.den := by exact_mod_cast hd
  have hnum : q.toRat.num = q.num := Rat.num_div_eq_of_coprime hd' hq
  have hden : ((q.toRat.den : ℕ) : ℤ) = q.den := Rat.den_div_eq_of_coprime hd' hq
  have hden' : q.toRat.den = q.den := by exact_mod_cast hden
  cases q with
  | mk n d => rw [ofRat, hnum, hden']

end Mpq

theorem fitsLong_of_inFixnumRange {n : ℤ} (h : InFixnumRange n) : FitsLong n := by
  unfold InFixnumRange mostNegativeFixnum mostPositiveFixnum at h
  unfold FitsLong
  omega

theorem normalizeZ_eq_makeInteger (z : ℤ) : normalizeZ z = makeInteger z := by
  unfold normalizeZ makeInteger
  by_cases h : InFixnumRange z
  · rw [if_pos (fitsLong_of_inFixnumRange h)]
  · rw [if_neg h, ite_self]

theorem represents_makeInteger (n : ℤ) : Represents (makeInteger n) n := by
  unfold makeInteger
  by_cases h : InFixnumRange n
  · rw [if_pos h]
    exact ⟨h, rfl⟩
  · rw [if_neg h]
    exact ⟨h, rfl⟩

theorem represents_normalizeZ (z : ℤ) : Represents (normalizeZ z) z := by
  rw [normalizeZ_eq_makeInteger]
  exact represents_makeInteger z

theorem represents_ratio {r : ℚ} (h : r.den ≠ 1) : Represents (.ratio (.ofRat r)) r := by
  have hpos : 0 < r.den := r.den_pos
  have hden : 1 < (Mpq.ofRat r).den := by
    show 1 < r.den
    omega
  exact ⟨⟨hden, r.reduced⟩, Mpq.toRat_ofRat r⟩

/-- A fraction in lowest terms becomes an integer exactly when its denominator is one. -/
theorem represents_normalizeQ (r : ℚ) : Represents (normalizeQ (.ofRat r)) r := by
  show Represents (if r.den = 1 then normalizeZ r.num else makeRatio (.ofRat r)) r
  by_cases h : r.den = 1
  · rw [if_pos h]
    have hz := represents_normalizeZ r.num
    rw [Rat.coe_int_num_of_den_eq_one h] at hz
    exact hz
  · rw [if_neg h]
    unfold makeRatio Mpq.canonicalize
    rw [Mpq.toRat_ofRat]
    exact represents_ratio h

theorem den_toRat {q : Mpq} (hq : (Rational.ratio q).Canonical) : q.toRat.den = q.den :=
  congrArg Mpq.den (Mpq.ofRat_toRat (Nat.zero_lt_of_lt hq.1) hq.2)

theorem not_isInt_toRat {q : Mpq} (hq : (Rational.ratio q).Canonical) (n : ℤ) :
    q.toRat ≠ n := by
  intro h
  have hden := den_toRat hq
  rw [h, Rat.den_intCast] at hden
  have := hq.1
  omega

/-- **Canonical representations are unique.** -/
theorem Represents.unique {x y : Rational} {r : ℚ} (hx : Represents x r) (hy : Represents y r) :
    x = y := by
  obtain ⟨hcx, rfl⟩ := hx
  obtain ⟨hcy, hv⟩ := hy
  cases x with
  | fixnum n =>
    cases y with
    | fixnum m => exact congrArg _ (Int.cast_injective hv).symm
    | bignum m =>
      have hmn : m = n := Int.cast_injective hv
      exact absurd (hmn ▸ hcx) hcy
    | ratio q => exact absurd hv (not_isInt_toRat hcy n)
  | bignum n =>
    cases y with
    | fixnum m =>
      have hmn : m = n := Int.cast_injective hv
      exact absurd (hmn ▸ hcy) hcx
    | bignum m => exact congrArg _ (Int.cast_injective hv).symm
    | ratio q => exact absurd hv (not_isInt_toRat hcy n)
  | ratio p =>
    cases y with
    | fixnum m => exact absurd hv.symm (not_isInt_toRat hcx m)
    | bignum m => exact absurd hv.symm (not_isInt_toRat hcx m)
    | ratio q =>
      have hp := Mpq.ofRat_toRat (Nat.zero_lt_of_lt hcx.1) hcx.2
      have hq := Mpq.ofRat_toRat (Nat.zero_lt_of_lt hcy.1) hcy.2
      have hv' : q.toRat = p.toRat := hv
      rw [← hp, ← hq, hv']

theorem represents_zero : Represents (.fixnum 0) 0 :=
  ⟨show InFixnumRange 0 by decide, Int.cast_zero⟩

theorem Represents.eq_zero_iff {x : Rational} {r : ℚ} (hx : Represents x r) :
    x = .fixnum 0 ↔ r = 0 := by
  constructor
  · intro h
    rw [← hx.2, h]
    exact Int.cast_zero
  · intro h
    rw [h] at hx
    exact hx.unique represents_zero

/-! ## Words -/

theorem toLong_of_fitsLong {n : ℤ} (h : FitsLong n) : toLong n = n := by
  unfold FitsLong at h
  exact Int.bmod_eq_of_le (by norm_num; omega) (by norm_num; omega)

theorem toLong_neg {n : ℤ} (h : InFixnumRange n) : toLong (-n) = -n := by
  apply toLong_of_fitsLong
  unfold InFixnumRange mostNegativeFixnum mostPositiveFixnum at h
  unfold FitsLong
  omega

theorem toUnsignedLong_of_nonneg {n : ℤ} (h : InFixnumRange n) (hn : 0 ≤ n) :
    toUnsignedLong n = n := by
  unfold InFixnumRange mostNegativeFixnum mostPositiveFixnum at h
  exact Int.emod_eq_of_lt hn (by omega)

theorem toUnsignedLong_neg {n : ℤ} (h : InFixnumRange n) (hn : n < 0) :
    toUnsignedLong (toLong (-n)) = -n := by
  rw [toLong_neg h]
  unfold InFixnumRange mostNegativeFixnum mostPositiveFixnum at h
  exact Int.emod_eq_of_lt (by omega) (by omega)

/-! ## Rational numbers -/

/-- The fraction that the mixed operations convert a rational number to. -/
def Rational.toMpq : Rational → Mpq
  | .fixnum n => .ofInt n
  | .bignum z => .ofInt z
  | .ratio q => q

theorem Rational.toRat_toMpq (x : Rational) : x.toMpq.toRat = x.value := by
  cases x with
  | fixnum n => exact Mpq.toRat_ofInt n
  | bignum z => exact Mpq.toRat_ofInt z
  | ratio q => rfl

theorem represents_normalizeQ_add (x y : Rational) :
    Represents (normalizeQ (x.toMpq.add y.toMpq)) (x.value + y.value) := by
  rw [← x.toRat_toMpq, ← y.toRat_toMpq]
  exact represents_normalizeQ _

theorem represents_normalizeQ_mul (x y : Rational) :
    Represents (normalizeQ (x.toMpq.mul y.toMpq)) (x.value * y.value) := by
  rw [← x.toRat_toMpq, ← y.toRat_toMpq]
  exact represents_normalizeQ _

theorem represents_normalizeQ_div (x y : Rational) :
    Represents (normalizeQ (x.toMpq.div y.toMpq)) (x.value / y.value) := by
  rw [← x.toRat_toMpq, ← y.toRat_toMpq]
  exact represents_normalizeQ _

theorem addLong_eq_makeInteger (z : ℤ) {n : ℤ} (hn : InFixnumRange n) :
    Bignum.addLong z n = makeInteger (z + n) := by
  have h : (if 0 ≤ n then z + toUnsignedLong n else z - toUnsignedLong (toLong (-n))) = z + n := by
    by_cases h0 : 0 ≤ n
    · rw [if_pos h0, toUnsignedLong_of_nonneg hn h0]
    · rw [if_neg h0, toUnsignedLong_neg hn (by omega)]
      omega
  unfold Bignum.addLong
  rw [h]
  exact normalizeZ_eq_makeInteger (z + n)

theorem subtractLong_eq_makeInteger (z : ℤ) {n : ℤ} (hn : InFixnumRange n) :
    Bignum.subtractLong z n = makeInteger (z - n) := by
  have h : (if 0 ≤ n then z - toUnsignedLong n else z + toUnsignedLong (toLong (-n))) = z - n := by
    by_cases h0 : 0 ≤ n
    · rw [if_pos h0, toUnsignedLong_of_nonneg hn h0]
    · rw [if_neg h0, toUnsignedLong_neg hn (by omega)]
      omega
  unfold Bignum.subtractLong
  rw [h, normalizeZ_eq_makeInteger]

theorem represents_addLong (z : ℤ) {n : ℤ} (hn : InFixnumRange n) :
    Represents (Bignum.addLong z n) (z + n) := by
  rw [addLong_eq_makeInteger z hn, ← Int.cast_add]
  exact represents_makeInteger (z + n)

theorem represents_ratio_addLong (q : Mpq) (n : ℤ) :
    Represents (Ratio.addLong q n) (q.toRat + n) :=
  represents_normalizeQ_add (.ratio q) (.fixnum n)

theorem represents_ratio_addBignum (q : Mpq) (z : ℤ) :
    Represents (Ratio.addBignum q z) (q.toRat + z) :=
  represents_normalizeQ_add (.ratio q) (.bignum z)

theorem fitsLong_add {m n : ℤ} (hm : InFixnumRange m) (hn : InFixnumRange n) :
    FitsLong (m + n) ∧ FitsLong (m - n) := by
  unfold InFixnumRange mostNegativeFixnum mostPositiveFixnum at hm hn
  unfold FitsLong
  omega

/-- **Addition of rational numbers.** -/
theorem twoArgPlus_represents {x y : Rational} {a b : ℚ} (hx : Represents x a)
    (hy : Represents y b) : Represents (x.twoArgPlus y) (a + b) := by
  obtain ⟨hcx, rfl⟩ := hx
  obtain ⟨hcy, rfl⟩ := hy
  cases x with
  | fixnum n =>
    cases y with
    | fixnum m =>
      show Represents (makeInteger (toLong (n + m))) ((n : ℚ) + (m : ℚ))
      rw [toLong_of_fitsLong (fitsLong_add hcx hcy).1, ← Int.cast_add]
      exact represents_makeInteger (n + m)
    | bignum z =>
      rw [add_comm]
      exact represents_addLong z hcx
    | ratio q =>
      rw [add_comm]
      exact represents_ratio_addLong q n
  | bignum z =>
    cases y with
    | fixnum m => exact represents_addLong z hcy
    | bignum w =>
      show Represents (normalizeZ (z + w)) ((z : ℚ) + (w : ℚ))
      rw [← Int.cast_add]
      exact represents_normalizeZ (z + w)
    | ratio q =>
      rw [add_comm]
      exact represents_ratio_addBignum q z
  | ratio p =>
    cases y with
    | fixnum m => exact represents_ratio_addLong p m
    | bignum w => exact represents_ratio_addBignum p w
    | ratio q => exact represents_normalizeQ_add (.ratio p) (.ratio q)

theorem represents_ratio_negate {q : Mpq} (hq : (Rational.ratio q).Canonical) :
    Represents (Ratio.negate q) (-q.toRat) := by
  have h : (-q.toRat).den ≠ 1 := by
    rw [Rat.den_neg_eq_den, den_toRat hq]
    have := hq.1
    omega
  unfold Ratio.negate makeRatio Mpq.canonicalize
  rw [Mpq.toRat_neg]
  exact represents_ratio h

theorem represents_bignum_negate (z : ℤ) : Represents (Bignum.negate z) (-z) := by
  unfold Bignum.negate
  rw [← Int.cast_neg]
  exact represents_normalizeZ (-z)

theorem negate_represents {x : Rational} {a : ℚ} (hx : Represents x a) :
    Represents x.negate (-a) := by
  obtain ⟨hcx, rfl⟩ := hx
  cases x with
  | fixnum n =>
    show Represents (if n = mostNegativeFixnum then makeInteger (toLong (-n)) else .fixnum (-n))
      (-(n : ℚ))
    rw [← Int.cast_neg]
    by_cases h : n = mostNegativeFixnum
    · rw [if_pos h, toLong_neg hcx]
      exact represents_makeInteger (-n)
    · rw [if_neg h]
      have hr : InFixnumRange (-n) := by
        have hn : InFixnumRange n := hcx
        unfold InFixnumRange mostNegativeFixnum mostPositiveFixnum at hn ⊢
        unfold mostNegativeFixnum at h
        omega
      exact ⟨hr, rfl⟩
  | bignum z => exact represents_bignum_negate z
  | ratio q => exact represents_ratio_negate hcx

/-- **Subtraction of rational numbers.** -/
theorem twoArgMinus_represents {x y : Rational} {a b : ℚ} (hx : Represents x a)
    (hy : Represents y b) : Represents (x.twoArgMinus y) (a - b) := by
  obtain ⟨hcx, rfl⟩ := hx
  obtain ⟨hcy, rfl⟩ := hy
  cases x with
  | fixnum n =>
    have hn : Represents (.fixnum n) n := ⟨hcx, rfl⟩
    cases y with
    | fixnum m =>
      show Represents (makeInteger (toLong (n - m))) ((n : ℚ) - (m : ℚ))
      rw [toLong_of_fitsLong (fitsLong_add hcx hcy).2, ← Int.cast_sub]
      exact represents_makeInteger (n - m)
    | bignum z =>
      rw [sub_eq_neg_add]
      exact twoArgPlus_represents (represents_bignum_negate z) hn
    | ratio q =>
      rw [sub_eq_neg_add]
      exact twoArgPlus_represents (represents_ratio_negate hcy) hn
  | bignum z =>
    cases y with
    | fixnum m =>
      show Represents (Bignum.subtractLong z m) ((z : ℚ) - (m : ℚ))
      rw [subtractLong_eq_makeInteger z hcy, ← Int.cast_sub]
      exact represents_makeInteger (z - m)
    | bignum w =>
      show Represents (normalizeZ (z - w)) ((z : ℚ) - (w : ℚ))
      rw [← Int.cast_sub]
      exact represents_normalizeZ (z - w)
    | ratio q =>
      rw [sub_eq_add_neg]
      exact twoArgPlus_represents (represents_value hcx) (represents_ratio_negate hcy)
  | ratio p =>
    cases y with
    | fixnum m =>
      show Represents (Ratio.addLong p (toLong (-m))) (p.toRat - (m : ℚ))
      rw [toLong_neg hcy, sub_eq_add_neg, ← Int.cast_neg]
      exact represents_ratio_addLong p (-m)
    | bignum w =>
      rw [sub_eq_add_neg]
      exact twoArgPlus_represents (represents_value hcx) (represents_bignum_negate w)
    | ratio q => exact represents_normalizeQ _

theorem represents_normalizeZ_mul (z w : ℤ) :
    Represents (normalizeZ (z * w)) ((z : ℚ) * (w : ℚ)) := by
  rw [← Int.cast_mul]
  exact represents_normalizeZ (z * w)

theorem fitsLong_mul {m n : ℤ} (hm : Rational.FitsInt m) (hn : Rational.FitsInt n) :
    FitsLong (m * n) := by
  unfold Rational.FitsInt at hm hn
  unfold FitsLong
  constructor <;> nlinarith

/-- **Multiplication of rational numbers.** -/
theorem twoArgStar_represents {x y : Rational} {a b : ℚ} (hx : Represents x a)
    (hy : Represents y b) : Represents (x.twoArgStar y) (a * b) := by
  obtain ⟨hcx, rfl⟩ := hx
  obtain ⟨hcy, rfl⟩ := hy
  cases x with
  | fixnum n =>
    cases y with
    | fixnum m =>
      show Represents (if Rational.FitsInt n ∧ Rational.FitsInt m then
        makeInteger (toLong (n * m)) else normalizeZ (n * m)) ((n : ℚ) * (m : ℚ))
      by_cases h : Rational.FitsInt n ∧ Rational.FitsInt m
      · rw [if_pos h, toLong_of_fitsLong (fitsLong_mul h.1 h.2), ← Int.cast_mul]
        exact represents_makeInteger (n * m)
      · rw [if_neg h]
        exact represents_normalizeZ_mul n m
    | bignum z =>
      rw [mul_comm]
      exact represents_normalizeZ_mul z n
    | ratio q => exact represents_normalizeQ_mul (.fixnum n) (.ratio q)
  | bignum z =>
    cases y with
    | fixnum m => exact represents_normalizeZ_mul z m
    | bignum w => exact represents_normalizeZ_mul z w
    | ratio q =>
      rw [mul_comm]
      exact represents_normalizeQ_mul (.ratio q) (.bignum z)
  | ratio p =>
    cases y with
    | fixnum m => exact represents_normalizeQ_mul (.ratio p) (.fixnum m)
    | bignum w => exact represents_normalizeQ_mul (.ratio p) (.bignum w)
    | ratio q => exact represents_normalizeQ_mul (.ratio p) (.ratio q)

theorem represents_quotient {n m : ℤ} (hn : InFixnumRange n) (hm : InFixnumRange m) :
    Represents (normalizeQ (Mpq.canonicalize (if m < 0 then
      ⟨toLong (-n), (toUnsignedLong (toLong (-m))).toNat⟩ else
      ⟨n, (toUnsignedLong m).toNat⟩))) ((n : ℚ) / (m : ℚ)) := by
  have h : Mpq.toRat (if m < 0 then ⟨toLong (-n), (toUnsignedLong (toLong (-m))).toNat⟩ else
      ⟨n, (toUnsignedLong m).toNat⟩) = (n : ℚ) / (m : ℚ) := by
    by_cases hneg : m < 0
    · rw [if_pos hneg, toLong_neg hn, toUnsignedLong_neg hm hneg]
      have hcast : (((-m).toNat : ℕ) : ℚ) = -(m : ℚ) := by
        have : (((-m).toNat : ℕ) : ℤ) = -m := Int.toNat_of_nonneg (by omega)
        exact_mod_cast this
      show ((-n : ℤ) : ℚ) / (((-m).toNat : ℕ) : ℚ) = _
      rw [hcast, Int.cast_neg, neg_div_neg_eq]
    · rw [if_neg hneg, toUnsignedLong_of_nonneg hm (by omega)]
      have hcast : ((m.toNat : ℕ) : ℚ) = (m : ℚ) := by
        have : ((m.toNat : ℕ) : ℤ) = m := Int.toNat_of_nonneg (by omega)
        exact_mod_cast this
      show (n : ℚ) / ((m.toNat : ℕ) : ℚ) = _
      rw [hcast]
  unfold Mpq.canonicalize
  rw [h]
  exact represents_normalizeQ _

/-- **Division of rational numbers.** -/
theorem twoArgSlash_represents {x y : Rational} {a b : ℚ} (hx : Represents x a)
    (hy : Represents y b) (hb : b ≠ 0) :
    ∃ z, x.twoArgSlash y = some z ∧ Represents z (a / b) := by
  have h0 : y ≠ .fixnum 0 := fun h => hb (hy.eq_zero_iff.mp h)
  obtain ⟨hcx, rfl⟩ := hx
  obtain ⟨hcy, rfl⟩ := hy
  unfold Rational.twoArgSlash
  rw [if_neg h0]
  cases x with
  | fixnum n =>
    cases y with
    | fixnum m => exact ⟨_, rfl, represents_quotient hcx hcy⟩
    | bignum z => exact ⟨_, rfl, represents_normalizeQ_div (.fixnum n) (.bignum z)⟩
    | ratio q => exact ⟨_, rfl, represents_normalizeQ_div (.fixnum n) (.ratio q)⟩
  | bignum z =>
    cases y with
    | fixnum m => exact ⟨_, rfl, represents_normalizeQ_div (.bignum z) (.fixnum m)⟩
    | bignum w => exact ⟨_, rfl, represents_normalizeQ_div (.bignum z) (.bignum w)⟩
    | ratio q => exact ⟨_, rfl, represents_normalizeQ_div (.bignum z) (.ratio q)⟩
  | ratio p =>
    cases y with
    | fixnum m => exact ⟨_, rfl, represents_normalizeQ_div (.ratio p) (.fixnum m)⟩
    | bignum w => exact ⟨_, rfl, represents_normalizeQ_div (.ratio p) (.bignum w)⟩
    | ratio q => exact ⟨_, rfl, represents_normalizeQ_div (.ratio p) (.ratio q)⟩

/-! ## Complex numbers -/

/-- The Gaussian rational that a number stands for. -/
noncomputable def Number.value : Number → ℂ
  | .real r => ⟨r.value, 0⟩
  | .complex re im => ⟨re.value, im.value⟩

/-- `x` is the canonical representation of `c`. -/
def Number.Represents (x : Number) (c : ℂ) : Prop := x.Canonical ∧ x.value = c

namespace Number

theorem represents_real {x : Rational} {a : ℚ} (hx : Numbers.Represents x a) :
    Represents (.real x) ⟨a, 0⟩ := by
  obtain ⟨hcx, rfl⟩ := hx
  exact ⟨hcx, rfl⟩

theorem represents_complex {x y : Rational} {a b : ℚ} (hx : Numbers.Represents x a)
    (hy : Numbers.Represents y b) (hb : b ≠ 0) : Represents (.complex x y) ⟨a, b⟩ := by
  have h0 : y ≠ .fixnum 0 := fun h => hb (hy.eq_zero_iff.mp h)
  obtain ⟨hcx, rfl⟩ := hx
  obtain ⟨hcy, rfl⟩ := hy
  exact ⟨⟨hcx, hcy, h0⟩, rfl⟩

theorem Represents.congr {x : Number} {c d : ℂ} (hx : Represents x c) (h : c = d) :
    Represents x d := h ▸ hx

theorem represents_makeComplex {x y : Rational} {a b : ℚ} (hx : Numbers.Represents x a)
    (hy : Numbers.Represents y b) : Represents (makeComplex x y) ⟨a, b⟩ := by
  unfold makeComplex
  by_cases h : y = .fixnum 0
  · rw [if_pos h, hy.eq_zero_iff.mp h, Rat.cast_zero]
    exact represents_real hx
  · rw [if_neg h]
    exact represents_complex hx hy fun hb => h (hy.eq_zero_iff.mpr hb)

theorem represents_makeQuotient {x y : Option Rational} {a b : ℚ}
    (hx : ∃ z, x = some z ∧ Numbers.Represents z a)
    (hy : ∃ z, y = some z ∧ Numbers.Represents z b) :
    ∃ z, makeQuotient x y = some z ∧ Represents z ⟨a, b⟩ := by
  obtain ⟨x', rfl, hx'⟩ := hx
  obtain ⟨y', rfl, hy'⟩ := hy
  exact ⟨_, rfl, represents_makeComplex hx' hy'⟩

theorem imagpart_value_ne_zero {re im : Rational} (h : (Number.complex re im).Canonical) :
    im.value ≠ 0 := by
  intro h0
  exact h.2.2 ((represents_value h.2.1).eq_zero_iff.mpr h0)

/-- **Addition.** -/
theorem plus_represents {x y : Number} (hx : x.Canonical) (hy : y.Canonical) :
    Represents (x.twoArgPlus y) (x.value + y.value) := by
  cases x with
  | real a =>
    have ha := represents_value (x := a) hx
    cases y with
    | real b =>
      have hb := represents_value (x := b) hy
      refine (represents_real (twoArgPlus_represents ha hb)).congr (Complex.ext ?_ ?_)
      · exact Rat.cast_add _ _
      · exact (add_zero 0).symm
    | complex re im =>
      have hre := represents_value hy.1
      have him := represents_value hy.2.1
      have hne := imagpart_value_ne_zero hy
      have hadd := represents_complex (twoArgPlus_represents ha hre) him hne
      have hadd' := represents_complex (twoArgPlus_represents hre ha) him hne
      cases a with
      | fixnum n =>
        refine hadd'.congr (Complex.ext ?_ (zero_add _).symm)
        exact (Rat.cast_add _ _).trans (add_comm _ _)
      | bignum z => exact hadd.congr (Complex.ext (Rat.cast_add _ _) (zero_add _).symm)
      | ratio q => exact hadd.congr (Complex.ext (Rat.cast_add _ _) (zero_add _).symm)
  | complex re im =>
    have hre := represents_value hx.1
    have him := represents_value hx.2.1
    cases y with
    | real b =>
      have hb := represents_value (x := b) hy
      have hadd := represents_complex (twoArgPlus_represents hre hb) him
        (imagpart_value_ne_zero hx)
      exact hadd.congr (Complex.ext (Rat.cast_add _ _) (add_zero _).symm)
    | complex re' im' =>
      have hre' := represents_value hy.1
      have him' := represents_value hy.2.1
      have hadd := represents_makeComplex (twoArgPlus_represents hre hre')
        (twoArgPlus_represents him him')
      exact hadd.congr (Complex.ext (Rat.cast_add _ _) (Rat.cast_add _ _))

def KeepsImagpart : Number → Number → Prop
  | .real (.bignum _), .complex _ _ => True
  | .real (.ratio _), .complex _ _ => True
  | _, _ => False

/-- **Subtraction**, when the imaginary part is not kept. -/
theorem minus_represents {x y : Number} (hx : x.Canonical) (hy : y.Canonical)
    (h : ¬KeepsImagpart x y) : Represents (x.twoArgMinus y) (x.value - y.value) := by
  cases x with
  | real a =>
    have ha := represents_value (x := a) hx
    cases y with
    | real b =>
      have hb := represents_value (x := b) hy
      refine (represents_real (twoArgMinus_represents ha hb)).congr (Complex.ext ?_ ?_)
      · exact Rat.cast_sub _ _
      · exact (sub_zero 0).symm
    | complex re im =>
      cases a with
      | fixnum n =>
        have hre := negate_represents (represents_value hy.1)
        have him := represents_value hy.2.1
        have hne : -im.value ≠ 0 := neg_ne_zero.mpr (imagpart_value_ne_zero hy)
        have hadd := represents_complex (twoArgPlus_represents hre ha) (negate_represents him) hne
        refine hadd.congr (Complex.ext ?_ ?_)
        · show ((-re.value + (n : ℚ) : ℚ) : ℝ) = ((n : ℚ) : ℝ) - (re.value : ℝ)
          push_cast
          ring
        · show ((-im.value : ℚ) : ℝ) = 0 - (im.value : ℝ)
          push_cast
          ring
      | bignum z => exact absurd trivial h
      | ratio q => exact absurd trivial h
  | complex re im =>
    have hre := represents_value hx.1
    have him := represents_value hx.2.1
    cases y with
    | real b =>
      have hb := represents_value (x := b) hy
      have hsub := represents_complex (twoArgMinus_represents hre hb) him
        (imagpart_value_ne_zero hx)
      exact hsub.congr (Complex.ext (Rat.cast_sub _ _) (sub_zero _).symm)
    | complex re' im' =>
      have hre' := represents_value hy.1
      have him' := represents_value hy.2.1
      have hsub := represents_makeComplex (twoArgMinus_represents hre hre')
        (twoArgMinus_represents him him')
      exact hsub.congr (Complex.ext (Rat.cast_sub _ _) (Rat.cast_sub _ _))

theorem minus_value_ne {x y : Number} (hy : y.Canonical) (h : KeepsImagpart x y) :
    (x.twoArgMinus y).value ≠ x.value - y.value := by
  have hwrong : ∀ (a re im : Rational), (Number.complex re im).Canonical →
      (Number.complex (a.twoArgMinus re) im).value
        ≠ (Number.real a).value - (Number.complex re im).value := by
    intro a re im hc heq
    have hcast : ((im.value : ℚ) : ℝ) = 0 - (im.value : ℝ) := congrArg Complex.im heq
    have hz : (im.value : ℝ) = 0 := by linarith
    exact imagpart_value_ne_zero hc (by exact_mod_cast hz)
  match x, y, h with
  | .real (.bignum z), .complex re im, _ => exact hwrong (.bignum z) re im hy
  | .real (.ratio q), .complex re im, _ => exact hwrong (.ratio q) re im hy

/-- **Multiplication.** -/
theorem star_represents {x y : Number} (hx : x.Canonical) (hy : y.Canonical) :
    Represents (x.twoArgStar y) (x.value * y.value) := by
  cases x with
  | real a =>
    have ha := represents_value (x := a) hx
    cases y with
    | real b =>
      have hb := represents_value (x := b) hy
      refine (represents_real (twoArgStar_represents ha hb)).congr (Complex.ext ?_ ?_)
      · simp [value]
      · simp [value]
    | complex re im =>
      have hmul := represents_makeComplex (twoArgStar_represents ha (represents_value hy.1))
        (twoArgStar_represents ha (represents_value hy.2.1))
      refine hmul.congr (Complex.ext ?_ ?_)
      · simp [value]
      · simp [value]
  | complex a b =>
    have ha := represents_value hx.1
    have hb := represents_value hx.2.1
    cases y with
    | real c =>
      have hc := represents_value (x := c) hy
      have hmul := represents_makeComplex (twoArgStar_represents ha hc)
        (twoArgStar_represents hb hc)
      refine hmul.congr (Complex.ext ?_ ?_)
      · simp [value]
      · simp [value]
    | complex c d =>
      have hc := represents_value hy.1
      have hd := represents_value hy.2.1
      have hac := twoArgStar_represents ha hc
      have hbd := twoArgStar_represents hb hd
      have hsums := twoArgStar_represents (twoArgPlus_represents ha hb)
        (twoArgPlus_represents hc hd)
      have him := twoArgMinus_represents (twoArgMinus_represents hsums hac) hbd
      refine (represents_makeComplex (twoArgMinus_represents hac hbd) him).congr
        (Complex.ext ?_ ?_)
      · simp [value]
      · simp only [value, Complex.mul_im]
        push_cast
        ring

/-- The quotient of complex numbers, with the square of the absolute value as denominator. -/
theorem div_mk (a b c d : ℝ) :
    (⟨a, b⟩ : ℂ) / ⟨c, d⟩ =
      ⟨(a * c + b * d) / (c * c + d * d), (b * c - a * d) / (c * c + d * d)⟩ := by
  apply Complex.ext
  · rw [Complex.div_re, Complex.normSq_mk]
    field_simp
  · rw [Complex.div_im, Complex.normSq_mk]
    field_simp

theorem represents_denominator {x y : Rational} (h : (Number.complex x y).Canonical) :
    Numbers.Represents (denominator x y) (x.value * x.value + y.value * y.value) ∧
      x.value * x.value + y.value * y.value ≠ 0 := by
  have hx := represents_value h.1
  have hy := represents_value h.2.1
  refine ⟨twoArgPlus_represents (twoArgStar_represents hx hx) (twoArgStar_represents hy hy), ?_⟩
  have hpos : 0 < y.value * y.value := mul_self_pos.mpr (imagpart_value_ne_zero h)
  have hnonneg : 0 ≤ x.value * x.value := mul_self_nonneg _
  linarith

/-- **Division** by a number other than zero. -/
theorem slash_represents {x y : Number} (hx : x.Canonical) (hy : y.Canonical)
    (h0 : y.value ≠ 0) :
    ∃ z, x.twoArgSlash y = some z ∧ Represents z (x.value / y.value) := by
  cases y with
  | real b =>
    have hb := represents_value (x := b) hy
    have hb0 : b.value ≠ 0 := by
      intro h
      apply h0
      apply Complex.ext
      · show ((b.value : ℚ) : ℝ) = 0
        rw [h, Rat.cast_zero]
      · rfl
    have hdiv : ∀ p q : ℝ, (⟨p, q⟩ : ℂ) / (Number.real b).value = ⟨p / b.value, q / b.value⟩ := by
      intro p q
      exact (congrArg _ (Complex.ofReal_def _).symm).trans (Complex.ext
        (Complex.div_ofReal_re _ _) (Complex.div_ofReal_im _ _))
    cases x with
    | real a =>
      obtain ⟨v, hv, hr⟩ := twoArgSlash_represents (represents_value (x := a) hx) hb hb0
      refine ⟨.real v, ?_, (represents_real hr).congr ?_⟩
      · show (a.twoArgSlash b).map Number.real = _
        rw [hv, Option.map_some]
      · rw [show (Number.real a).value = ⟨a.value, 0⟩ from rfl, hdiv, zero_div, Rat.cast_div]
    | complex re im =>
      obtain ⟨v, hv, hr⟩ := represents_makeQuotient
        (twoArgSlash_represents (represents_value hx.1) hb hb0)
        (twoArgSlash_represents (represents_value hx.2.1) hb hb0)
      refine ⟨v, hv, hr.congr ?_⟩
      rw [show (Number.complex re im).value = ⟨re.value, im.value⟩ from rfl, hdiv, Rat.cast_div,
        Rat.cast_div]
  | complex c d =>
    have hc := represents_value hy.1
    have hd := represents_value hy.2.1
    obtain ⟨he, he0⟩ := represents_denominator hy
    have hdiv : ∀ p q : ℝ, (⟨p, q⟩ : ℂ) / (Number.complex c d).value = _ := fun p q =>
      div_mk p q c.value d.value
    cases x with
    | real a =>
      have ha := represents_value (x := a) hx
      have hre := twoArgSlash_represents (twoArgStar_represents ha hc) he he0
      have him := twoArgSlash_represents (twoArgMinus_represents represents_zero
        (twoArgStar_represents ha hd)) he he0
      have him' := twoArgSlash_represents (twoArgStar_represents
        (twoArgMinus_represents represents_zero ha) hd) he he0
      rw [show (Number.real a).value = ⟨a.value, 0⟩ from rfl, hdiv]
      cases a with
      | fixnum n =>
        obtain ⟨v, hv, hr⟩ := represents_makeQuotient hre him
        exact ⟨v, hv, hr.congr (by push_cast; simp)⟩
      | bignum z =>
        obtain ⟨v, hv, hr⟩ := represents_makeQuotient hre him
        exact ⟨v, hv, hr.congr (by push_cast; simp)⟩
      | ratio q =>
        obtain ⟨v, hv, hr⟩ := represents_makeQuotient hre him'
        exact ⟨v, hv, hr.congr (by push_cast; simp)⟩
    | complex a b =>
      have ha := represents_value hx.1
      have hb := represents_value hx.2.1
      obtain ⟨v, hv, hr⟩ := represents_makeQuotient
        (twoArgSlash_represents (twoArgPlus_represents (twoArgStar_represents ha hc)
          (twoArgStar_represents hb hd)) he he0)
        (twoArgSlash_represents (twoArgMinus_represents (twoArgStar_represents hb hc)
          (twoArgStar_represents ha hd)) he he0)
      refine ⟨v, hv, hr.congr ?_⟩
      rw [show (Number.complex a b).value = ⟨a.value, b.value⟩ from rfl, hdiv]
      push_cast
      rfl

end Number

/-! ## The operations -/

inductive Operation
  | plus
  | minus
  | star
  | slash
  deriving DecidableEq

namespace Operation

def call : Operation → Number → Number → Option Number
  | .plus, x, y => some (x.twoArgPlus y)
  | .minus, x, y => some (x.twoArgMinus y)
  | .star, x, y => some (x.twoArgStar y)
  | .slash, x, y => x.twoArgSlash y

noncomputable def meaning : Operation → ℂ → ℂ → ℂ
  | .plus, a, b => a + b
  | .minus, a, b => a - b
  | .star, a, b => a * b
  | .slash, a, b => a / b

/-- The result is the canonical representation of the mathematical result. -/
def IsExact (op : Operation) (x y : Number) : Prop :=
  ∃ z, op.call x y = some z ∧ z.Represents (op.meaning x.value y.value)

end Operation

/-- **The arithmetic is exact** unless a complex number is subtracted from a bignum or a ratio. -/
theorem exact_iff (op : Operation) {x y : Number} (hx : x.Canonical) (hy : y.Canonical)
    (h0 : op = .slash → y.value ≠ 0) :
    op.IsExact x y ↔ ¬(op = .minus ∧ Number.KeepsImagpart x y) := by
  cases op with
  | plus => exact iff_of_true ⟨_, rfl, Number.plus_represents hx hy⟩ (by simp)
  | minus =>
    constructor
    · rintro ⟨z, hz, hr⟩ ⟨-, hk⟩
      obtain rfl := Option.some.inj hz
      exact Number.minus_value_ne hy hk hr.2
    · intro h
      exact ⟨_, rfl, Number.minus_represents hx hy fun hk => h ⟨rfl, hk⟩⟩
  | star => exact iff_of_true ⟨_, rfl, Number.star_represents hx hy⟩ (by simp)
  | slash => exact iff_of_true (Number.slash_represents hx hy (h0 rfl)) (by simp)

/-- One divided by `1 + i`. -/
theorem isExact_slash_one :
    Operation.slash.IsExact (.real (.fixnum 1)) (.complex (.fixnum 1) (.fixnum 1)) := by
  have h1 : Rational.Canonical (.fixnum 1) := show InFixnumRange 1 by decide
  have h0 : (Number.complex (.fixnum 1) (.fixnum 1)).value ≠ 0 := by
    intro h
    have hre : (((1 : ℤ) : ℚ) : ℝ) = 0 := congrArg Complex.re h
    norm_num at hre
  refine (exact_iff .slash (x := .real (.fixnum 1)) (y := .complex (.fixnum 1) (.fixnum 1)) h1
    ⟨h1, h1, by decide⟩ fun _ => h0).mpr ?_
  rintro ⟨h, -⟩
  exact absurd h (by decide)

/-- `2 ^ 61 - i` is computed as `2 ^ 61 + i`. -/
theorem not_isExact_minus :
    Operation.call .minus (.real (.bignum 2305843009213693952)) (.complex (.fixnum 0) (.fixnum 1))
        = some (.complex (.bignum 2305843009213693952) (.fixnum 1)) ∧
      (Number.real (.bignum 2305843009213693952)).Canonical ∧
      (Number.complex (.fixnum 0) (.fixnum 1)).Canonical ∧
      ¬Operation.minus.IsExact (.real (.bignum 2305843009213693952))
        (.complex (.fixnum 0) (.fixnum 1)) := by
  have hc : (Number.complex (.fixnum 0) (.fixnum 1)).Canonical :=
    ⟨show InFixnumRange 0 by decide, show InFixnumRange 1 by decide, by decide⟩
  refine ⟨by decide, show ¬InFixnumRange 2305843009213693952 by decide, hc, ?_⟩
  rintro ⟨z, hz, hr⟩
  obtain rfl := Option.some.inj hz
  exact Number.minus_value_ne (x := .real (.bignum 2305843009213693952)) hc trivial hr.2

/-! ## Sums of several numbers -/

/-- `CL_add`. -/
def clAdd : List Number → Number
  | [x] => x
  | [x, y] => x.twoArgPlus y
  | args => args.foldl Number.twoArgPlus (.real (.fixnum 0))

/-- `(+ ,@args)` behind the source transform, which nests the calls to the right. -/
def transformedPlus : List Number → Number
  | x :: y :: z :: args => x.twoArgPlus (transformedPlus (y :: z :: args))
  | args => clAdd args

theorem foldl_represents {x : Number} {c : ℂ} (hx : x.Represents c) {args : List Number}
    (h : ∀ x ∈ args, x.Canonical) :
    (args.foldl Number.twoArgPlus x).Represents (c + (args.map Number.value).sum) := by
  induction args generalizing x c with
  | nil => simpa using hx
  | cons y args ih =>
    have hsum := Number.plus_represents hx.1 (h y List.mem_cons_self)
    rw [hx.2] at hsum
    simpa [add_assoc] using ih hsum fun x hx => h x (List.mem_cons_of_mem _ hx)

theorem clAdd_represents {args : List Number} (h : ∀ x ∈ args, x.Canonical) :
    (clAdd args).Represents (args.map Number.value).sum := by
  unfold clAdd
  split
  · simpa [Number.Represents] using h
  · simpa using Number.plus_represents (h _ (by simp)) (h _ (by simp))
  · have hzero := (Number.represents_real represents_zero).congr (d := 0) (by simp; rfl)
    simpa using foldl_represents hzero h

/-- **Compiled sums are the sums of `CL_add`**, whatever the order of the arguments. -/
theorem sums_represent {args args' : List Number} (h : ∀ x ∈ args, x.Canonical)
    (hperm : args.Perm args') : (transformedPlus args).Represents (args.map Number.value).sum ∧
      (clAdd args').Represents (args.map Number.value).sum := by
  constructor
  · clear hperm
    fun_induction transformedPlus args with
    | case1 x y z args ih =>
      have hrest := ih fun x hx => h x (List.mem_cons_of_mem _ hx)
      have hsum := Number.plus_represents (h x List.mem_cons_self) hrest.1
      rwa [hrest.2] at hsum
    | case2 args => exact clAdd_represents h
  · rw [(hperm.map Number.value).sum_eq]
    exact clAdd_represents fun x hx => h x (hperm.mem_iff.mpr hx)

/-- `2 ^ 61 - 1`, three times. -/
def threeFixnums : List Number := .replicate 3 (.real (.fixnum mostPositiveFixnum))

theorem sums_represent_threeFixnums :
    (transformedPlus threeFixnums).Represents (threeFixnums.map Number.value).sum ∧
      (clAdd threeFixnums).Represents (threeFixnums.map Number.value).sum :=
  sums_represent (fun _ hx => List.eq_of_mem_replicate hx ▸
    show InFixnumRange mostPositiveFixnum by decide) (.refl _)

end Xcl.Numbers
