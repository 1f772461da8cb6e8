import Xcl.Numbers.Exact

/-!
# Integer powers

* `uiPowUi`, `Mpq.inv`: what `CL_expt` uses of GMP;
* **`expt_exact_iff`**: the function is exact except for powers that are bignums and for the powers
  of zero below -1.
-/

namespace Xcl.Numbers

/-! ## The function -/

/-- `mpz_ui_pow_ui`; the arguments become unsigned. -/
def uiPowUi (n exp : ℤ) : ℤ := toUnsignedLong n ^ (toUnsignedLong exp).toNat

/-- `mpz_pow_ui` -/
def powUi (z exp : ℤ) : ℤ := z ^ (toUnsignedLong exp).toNat

/-- `mpq_inv` -/
def Mpq.inv (q : Mpq) : Mpq := ofRat q.toRat⁻¹

/-- `mpz_neg` if the power is odd. -/
def negateIfOdd (exp z : ℤ) : ℤ := if exp.tmod 2 ≠ 0 then -z else z

/-- `CL_expt` for a rational base and a power that is a fixnum; `none` is the division by zero
error. -/
def exptFixnum (base : Rational) (exp : ℤ) : Option Rational :=
  if exp = 0 then some (.fixnum 1)
  else if exp = 1 then some base
  else if exp = -1 then (Rational.fixnum 1).twoArgSlash base
  else
    match base with
    | .fixnum n =>
      if n = 0 then some (.fixnum 0)
      else if exp > 0 then
        if n > 0 then some (normalizeZ (uiPowUi n exp))
        else some (normalizeZ (negateIfOdd exp (uiPowUi (toLong (-n)) exp)))
      else if n > 0 then some (normalizeQ (Mpq.ofInt (uiPowUi n (toLong (-exp)))).inv)
      else
        some (normalizeQ
          (Mpq.ofInt (negateIfOdd exp (uiPowUi (toLong (-n)) (toLong (-exp))))).inv)
    | .bignum z =>
      if exp > 0 then
        if z > 0 then some (normalizeZ (powUi z exp))
        else some (normalizeZ (negateIfOdd exp (powUi (-z) exp)))
      else if z > 0 then some (normalizeQ (Mpq.ofInt (powUi z (toLong (-exp)))).inv)
      else some (normalizeQ (Mpq.ofInt (negateIfOdd exp (powUi (-z) (toLong (-exp))))).inv)
    | .ratio q => do
      let numerator ← exptFixnum (Ratio.numerator q) exp
      let denominator ← exptFixnum (Ratio.denominator q) exp
      numerator.twoArgSlash denominator
termination_by base.depth
decreasing_by
  · exact (depth_normalizeZ q.num).trans_lt Nat.one_pos
  · exact (depth_normalizeZ q.den).trans_lt Nat.one_pos

/-- How a call of `expt` ends. -/
inductive ExptOutcome (Float : Type)
  | rational (r : Rational)
  | float (f : Float)
  | divisionByZero
  deriving DecidableEq

/-- `CL_expt` for rational arguments. `powf` is the power of the two arguments as floats. -/
def expt {Float : Type} (powf : Rational → Rational → Float) (base power : Rational) :
    ExptOutcome Float :=
  match power with
  | .fixnum exp => (exptFixnum base exp).elim .divisionByZero .rational
  | power => .float (powf base power)

/-! ## Powers of a number other than zero -/

section Powers

variable {exp : ℤ}

theorem natAbs_toUnsignedLong (he : InFixnumRange exp) :
    (toUnsignedLong (if exp > 0 then exp else toLong (-exp))).toNat = exp.natAbs := by
  split_ifs with h
  · rw [toUnsignedLong_of_nonneg he h.le]
    omega
  · rcases eq_or_lt_of_le (not_lt.mp h) with h0 | hneg
    · subst h0
      rfl
    · rw [toUnsignedLong_neg he hneg]
      omega

theorem negateIfOdd_pow (exp m : ℤ) : negateIfOdd exp (m ^ exp.natAbs) = (-m) ^ exp.natAbs := by
  unfold negateIfOdd
  by_cases h : Even exp.natAbs
  · have hmod : exp.tmod 2 = 0 := Int.tmod_eq_zero_of_dvd (Int.natAbs_even.mp h).two_dvd
    rw [if_neg (not_not.mpr hmod), h.neg_pow]
  · have hmod : exp.tmod 2 ≠ 0 := by
      intro h0
      exact h (Int.natAbs_even.mpr (even_iff_two_dvd.mpr (Int.dvd_of_tmod_eq_zero h0)))
    rw [if_pos hmod, (Nat.not_even_iff_odd.mp h).neg_pow]

theorem cast_pow_natAbs (m : ℤ) (h : exp > 0) : ((m ^ exp.natAbs : ℤ) : ℚ) = (m : ℚ) ^ exp := by
  conv_rhs => rw [← Int.natAbs_of_nonneg h.le, zpow_natCast]
  push_cast
  rfl

theorem toRat_inv_pow (m : ℤ) (h : ¬exp > 0) :
    (Mpq.ofInt (m ^ exp.natAbs)).inv = Mpq.ofRat ((m : ℚ) ^ exp) := by
  have hexp : exp = -(exp.natAbs : ℤ) := by omega
  unfold Mpq.inv
  rw [Mpq.toRat_ofInt]
  conv_rhs => rw [hexp, zpow_neg, zpow_natCast]
  push_cast
  rfl

/-- The base as an integer, its absolute value and its sign. -/
theorem exptFixnum_integer {m : ℤ} (he : InFixnumRange exp) (h0 : m ≠ 0) (h₀ : exp ≠ 0)
    (h₁ : exp ≠ 1) (h₂ : exp ≠ -1) :
    ∃ r, exptFixnum (makeInteger m) exp = some r ∧ Represents r ((m : ℚ) ^ exp) := by
  have hexp := natAbs_toUnsignedLong he
  have hpos : exp > 0 → Represents (normalizeZ (m ^ exp.natAbs)) ((m : ℚ) ^ exp) := by
    intro h
    rw [← cast_pow_natAbs m h]
    exact represents_normalizeZ _
  have hneg : ¬exp > 0 →
      Represents (normalizeQ (Mpq.ofInt (m ^ exp.natAbs)).inv) ((m : ℚ) ^ exp) := by
    intro h
    rw [toRat_inv_pow m h]
    exact represents_normalizeQ _
  have habs : negateIfOdd exp ((-m) ^ exp.natAbs) = m ^ exp.natAbs := by
    rw [negateIfOdd_pow, neg_neg]
  unfold makeInteger
  split_ifs with hm
  · unfold exptFixnum
    rw [if_neg h₀, if_neg h₁, if_neg h₂]
    simp only [h0, if_false]
    unfold uiPowUi
    by_cases h : exp > 0
    · rw [if_pos h] at hexp
      rw [if_pos h]
      by_cases hsign : m > 0
      · rw [if_pos hsign, toUnsignedLong_of_nonneg hm hsign.le, hexp]
        exact ⟨_, rfl, hpos h⟩
      · rw [if_neg hsign, toUnsignedLong_neg hm (by omega), hexp, habs]
        exact ⟨_, rfl, hpos h⟩
    · rw [if_neg h] at hexp
      rw [if_neg h]
      by_cases hsign : m > 0
      · rw [if_pos hsign, toUnsignedLong_of_nonneg hm hsign.le, hexp]
        exact ⟨_, rfl, hneg h⟩
      · rw [if_neg hsign, toUnsignedLong_neg hm (by omega), hexp, habs]
        exact ⟨_, rfl, hneg h⟩
  · unfold exptFixnum
    rw [if_neg h₀, if_neg h₁, if_neg h₂]
    simp only
    unfold powUi
    by_cases h : exp > 0
    · rw [if_pos h] at hexp
      rw [if_pos h, hexp]
      by_cases hsign : m > 0
      · rw [if_pos hsign]
        exact ⟨_, rfl, hpos h⟩
      · rw [if_neg hsign, habs]
        exact ⟨_, rfl, hpos h⟩
    · rw [if_neg h] at hexp
      rw [if_neg h, hexp]
      by_cases hsign : m > 0
      · rw [if_pos hsign]
        exact ⟨_, rfl, hneg h⟩
      · rw [if_neg hsign, habs]
        exact ⟨_, rfl, hneg h⟩

end Powers

/-! ## Rational bases -/

section Bases

variable {base : Rational} {b : ℚ} {exp : ℤ}

theorem represents_one : Represents (.fixnum 1) 1 :=
  ⟨show InFixnumRange 1 by decide, Int.cast_one⟩

theorem Represents.eq_makeInteger {x : Rational} {m : ℤ} (hx : Represents x m) :
    x = makeInteger m :=
  hx.unique (represents_makeInteger m)

/-- **The powers of a number**, except for the negative powers of zero. -/
theorem exptFixnum_represents (hb : Represents base b) (he : InFixnumRange exp)
    (h : ¬(b = 0 ∧ exp < 0)) :
    ∃ r, exptFixnum base exp = some r ∧ Represents r (b ^ exp) := by
  by_cases h₀ : exp = 0
  · subst h₀
    refine ⟨.fixnum 1, by rw [exptFixnum.eq_def, if_pos rfl], ?_⟩
    rw [zpow_zero]
    exact represents_one
  by_cases h₁ : exp = 1
  · subst h₁
    exact ⟨base, by rw [exptFixnum.eq_def, if_neg h₀, if_pos rfl], by rw [zpow_one]; exact hb⟩
  by_cases h₂ : exp = -1
  · subst h₂
    have hb0 : b ≠ 0 := fun h0 => h ⟨h0, by decide⟩
    obtain ⟨r, hr, hrep⟩ := twoArgSlash_represents represents_one hb hb0
    refine ⟨r, by rw [exptFixnum.eq_def, if_neg h₀, if_neg h₁, if_pos rfl, hr], ?_⟩
    rw [zpow_neg_one, ← one_div]
    exact hrep
  have hinteger : ∀ m : ℤ, Represents base m →
      ∃ r, exptFixnum base exp = some r ∧ Represents r (b ^ exp) := by
    intro m hm
    have hbm : b = m := hb.2.symm.trans hm.2
    by_cases h0 : m = 0
    · have hexp : ¬exp < 0 := fun hneg => h ⟨by rw [hbm, h0, Int.cast_zero], hneg⟩
      refine ⟨.fixnum 0, ?_, ?_⟩
      · rw [hm.eq_makeInteger, h0, exptFixnum.eq_def, if_neg h₀, if_neg h₁, if_neg h₂]
        rfl
      · rw [hbm, h0, Int.cast_zero, zero_zpow exp h₀]
        exact represents_zero
    · rw [hm.eq_makeInteger, hbm]
      exact exptFixnum_integer he h0 h₀ h₁ h₂
  cases base with
  | fixnum n => exact hinteger n ⟨hb.1, rfl⟩
  | bignum z => exact hinteger z ⟨hb.1, rfl⟩
  | ratio q =>
    -- the power of the numerator divided by the power of the denominator
    have hden : (q.den : ℤ) ≠ 0 := by
      have := hb.1.1
      omega
    have hvalue : b = (q.num : ℚ) / (q.den : ℤ) := hb.2.symm
    have hnum : q.num ≠ 0 := by
      intro h0
      exact not_isInt_toRat hb.1 0 (by rw [Mpq.toRat, h0, Int.cast_zero, zero_div])
    obtain ⟨n, hn, hnrep⟩ := exptFixnum_integer he hnum h₀ h₁ h₂
    obtain ⟨d, hd, hdrep⟩ := exptFixnum_integer he hden h₀ h₁ h₂
    have hdQ : ((q.den : ℤ) : ℚ) ^ exp ≠ 0 := zpow_ne_zero exp (by exact_mod_cast hden)
    obtain ⟨r, hr, hrep⟩ := twoArgSlash_represents hnrep hdrep hdQ
    refine ⟨r, ?_, by rw [hvalue, div_zpow]; exact hrep⟩
    rw [exptFixnum.eq_def, if_neg h₀, if_neg h₁, if_neg h₂]
    simp only [Ratio.numerator, Ratio.denominator, normalizeZ_eq_makeInteger, hn, hd,
      Option.bind_eq_bind, Option.bind_some, hr]

/-- Of the negative powers of zero, only the power -1 is an error. -/
theorem exptFixnum_zero (h : exp < 0) :
    exptFixnum (.fixnum 0) exp = if exp = -1 then none else some (.fixnum 0) := by
  rw [exptFixnum.eq_def, if_neg (by omega), if_neg (by omega)]
  rfl

end Bases

/-! ## The function is exact -/

section Exact

variable {Float : Type} (powf : Rational → Rational → Float)

/-- The result of `expt` is the power, and a negative power of zero is a division by zero. -/
def ExptExact (x y : Rational) (b : ℚ) (e : ℤ) : Prop :=
  (b = 0 ∧ e < 0 → expt powf x y = .divisionByZero) ∧
  (¬(b = 0 ∧ e < 0) → ∃ r, expt powf x y = .rational r ∧ Represents r (b ^ e))

variable {x y : Rational} {b : ℚ} {e : ℤ}

/-- **`expt` is exact** except for powers that are bignums and for the powers of zero below -1. -/
theorem expt_exact_iff (hx : Represents x b) (hy : Represents y e) :
    ExptExact powf x y b e ↔ InFixnumRange e ∧ ¬(b = 0 ∧ e < -1) := by
  obtain rfl := hy.eq_makeInteger
  unfold ExptExact makeInteger
  by_cases he : InFixnumRange e
  · rw [if_pos he]
    simp only [he, true_and, expt]
    by_cases hzero : b = 0 ∧ e < 0
    · obtain rfl := hx.eq_zero_iff.mpr hzero.1
      rw [exptFixnum_zero hzero.2]
      simp only [hzero, and_self, forall_true_left, not_true_eq_false, false_imp_iff, and_true,
        true_and, not_lt]
      by_cases h : e = -1
      · simp [h]
      · simp only [h, if_false, Option.elim_some, reduceCtorEq, false_iff, not_le]
        omega
    · obtain ⟨r, hr, hrep⟩ := exptFixnum_represents hx he hzero
      have hleft : ¬(b = 0 ∧ e < -1) := fun h => hzero ⟨h.1, by omega⟩
      simp only [hzero, hleft, hr, false_imp_iff, not_false_eq_true, forall_true_left, true_and,
        Option.elim_some, ExptOutcome.rational.injEq, iff_true]
      exact ⟨r, rfl, hrep⟩
  · rw [if_neg he]
    simp only [he, false_and, iff_false, expt]
    rintro ⟨h₁, h₂⟩
    by_cases hzero : b = 0 ∧ e < 0
    · exact absurd (h₁ hzero) (by simp)
    · obtain ⟨r, hr, -⟩ := h₂ hzero
      simp at hr

/-- `(expt 2/3 -3)` -/
theorem expt_exact_iff_ratio :
    ExptExact (fun _ _ => ()) (.ratio ⟨2, 3⟩) (.fixnum (-3)) (2 / 3) (-3) := by
  have hx : Represents (.ratio ⟨2, 3⟩) (2 / 3) :=
    ⟨⟨by decide, by decide⟩, by norm_num [Rational.value, Mpq.toRat]⟩
  have hy : Represents (.fixnum (-3)) ((-3 : ℤ) : ℚ) := ⟨show InFixnumRange (-3) by decide, rfl⟩
  exact (expt_exact_iff _ hx hy).mpr ⟨by decide, by norm_num⟩

/-- `(expt 0 -2)` is zero. -/
theorem not_exptExact_zero : ¬ExptExact (fun _ _ => ()) (.fixnum 0) (.fixnum (-2)) 0 (-2) := by
  intro h
  have h := h.1 ⟨rfl, by decide⟩
  simp [expt, exptFixnum] at h

end Exact

end Xcl.Numbers
