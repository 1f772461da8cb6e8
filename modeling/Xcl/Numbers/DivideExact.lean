import Xcl.Lib.RoundedDivision
import Xcl.Numbers.Coherent
import Xcl.Numbers.Divide

/-!
# Division with rounding is exact

* `Rounding.Exact`, **`divide2_returns`**: a rounding whose divisions of integers are exact is exact
  on rational numbers;
* **`division_exact`**: all six functions, and division by zero.
-/

namespace Xcl.Division

open Numbers
open Comparison (equalsRational ltRational gtRational equalsRational_iff ltRational_iff
  gtRational_iff)
open RoundedDivision

/-! ## Running -/

namespace Kernel

variable {α β : Type}

/-- What a function returns when it is called in a thread, and the thread afterwards. -/
def run (c : Kernel α) (t : Thread) : Except DivisionByZero α × Thread := c t

@[simp] theorem run_pure (a : α) (t : Thread) : (pure a : Kernel α).run t = (.ok a, t) := rfl

theorem run_bind_ok {c : Kernel α} {t t' : Thread} {a : α} (h : c.run t = (.ok a, t'))
    (f : α → Kernel β) : (c >>= f).run t = (f a).run t' := by
  unfold run at h ⊢
  simp only [bind, ExceptT.bind, ExceptT.mk, StateT.bind, h]
  rfl

theorem run_bind_error {c : Kernel α} {t t' : Thread} {e : DivisionByZero}
    (h : c.run t = (.error e, t')) (f : α → Kernel β) : (c >>= f).run t = (.error e, t') := by
  unfold run at h ⊢
  simp only [bind, ExceptT.bind, ExceptT.mk, StateT.bind, h]
  rfl

@[simp] theorem run_returnValues (v₁ v₂ : Rational) (t : Thread) :
    (returnValues v₁ v₂).run t = (.ok v₁, t.setValues v₁ v₂) := rfl

@[simp] theorem run_nthValue (i : ℕ) (t : Thread) : (nthValue i).run t = (.ok (t.nthValue i), t) :=
  rfl

@[simp] theorem run_setValuesLength (n : ℤ) (t : Thread) :
    (setValuesLength n).run t = (.ok (), t.setValuesLength n) := rfl

@[simp] theorem run_clearValues (t : Thread) : clearValues.run t = (.ok (), t.clearValues) := rfl

end Kernel

@[simp] theorem nthValue_setValues (t : Thread) (v₁ v₂ : Rational) :
    (t.setValues v₁ v₂).nthValue 1 = v₂ := by
  simp [Thread.setValues, Thread.nthValue]

@[simp] theorem setValues_setValues (t : Thread) (v₁ v₂ w₁ w₂ : Rational) :
    (t.setValues v₁ v₂).setValues w₁ w₂ = t.setValues w₁ w₂ := by
  simp only [Thread.setValues, Thread.mk.injEq, true_and]
  funext i
  by_cases h₁ : i = 1
  · simp [h₁]
  · by_cases h₀ : i = 0 <;> simp [h₁, h₀]

@[simp] theorem setValues_setValuesLength (t : Thread) (n : ℤ) (v₁ v₂ : Rational) :
    (t.setValuesLength n).setValues v₁ v₂ = t.setValues v₁ v₂ := rfl

/-- The function returns a quotient and a remainder as multiple values. -/
def Returns (c : Kernel Rational) (q r : ℚ) : Prop :=
  ∃ x y, Represents x q ∧ Represents y r ∧ ∀ t, c.run t = (.ok x, t.setValues x y)

/-- The function signals division by zero, and the values of the thread are what they were. -/
def Signals {α : Type} (c : Kernel α) : Prop := ∃ e, ∀ t, c.run t = (.error e, t)

theorem Returns.congr {c : Kernel Rational} {q r q' r' : ℚ} (h : Returns c q r) (hq : q = q')
    (hr : r = r') : Returns c q' r' := by
  rw [← hq, ← hr]
  exact h

theorem returns_returnValues {x y : Rational} {q r : ℚ} (hx : Represents x q)
    (hy : Represents y r) : Returns (Kernel.returnValues x y) q r :=
  ⟨x, y, hx, hy, fun _ => rfl⟩

theorem Returns.of_values {c : Kernel Rational} {u v : Rational} {q r : ℚ}
    {f : Rational → Rational → Kernel Rational} (hrun : ∀ t, c.run t = (.ok u, t.setValues u v))
    (h : Returns (f u v) q r) :
    Returns (c >>= fun a => Kernel.nthValue 1 >>= fun b => f a b) q r := by
  obtain ⟨x, y, hx, hy, hf⟩ := h
  refine ⟨x, y, hx, hy, fun t => ?_⟩
  rw [Kernel.run_bind_ok (hrun t), Kernel.run_bind_ok (Kernel.run_nthValue 1 _),
    nthValue_setValues, hf, setValues_setValues]

theorem Returns.of_run {α : Type} {c : Kernel α} {u : α} {q r : ℚ} {f : α → Kernel Rational}
    (hrun : ∀ t, c.run t = (.ok u, t)) (h : Returns (f u) q r) : Returns (c >>= f) q r := by
  obtain ⟨x, y, hx, hy, hf⟩ := h
  exact ⟨x, y, hx, hy, fun t => (Kernel.run_bind_ok (hrun t) f).trans (hf t)⟩

theorem Signals.bind {α β : Type} {c : Kernel α} (h : Signals c) (f : α → Kernel β) :
    Signals (c >>= f) := by
  obtain ⟨e, he⟩ := h
  exact ⟨e, fun t => Kernel.run_bind_error (he t) f⟩

theorem run_twoArgSlash {x y : Rational} {a b : ℚ} (hx : Represents x a) (hy : Represents y b)
    (hb : b ≠ 0) : ∃ z, Represents z (a / b) ∧ ∀ t, (twoArgSlash x y).run t = (.ok z, t) := by
  obtain ⟨z, hz, hrep⟩ := twoArgSlash_represents hx hy hb
  refine ⟨z, hrep, fun t => ?_⟩
  unfold twoArgSlash
  rw [hz]
  rfl

theorem signals_twoArgSlash (x : Rational) : Signals (twoArgSlash x (.fixnum 0)) := by
  refine ⟨⟨.twoArgSlash, x, .fixnum 0⟩, fun t => ?_⟩
  unfold twoArgSlash
  rw [show x.twoArgSlash (.fixnum 0) = none from rfl]
  rfl

/-! ## Fixnums -/

section Longs

variable {n d : ℤ}

theorem longAbs_eq (hn : InFixnumRange n) : longAbs n = |n| := by
  unfold longAbs
  split_ifs with h
  · exact (abs_of_nonneg h).symm
  · rw [toLong_neg hn, abs_of_neg (not_le.mp h)]

theorem abs_le_of_inFixnumRange (hn : InFixnumRange n) : |n| ≤ 2305843009213693952 := by
  obtain ⟨h₁, h₂⟩ := hn
  unfold mostNegativeFixnum at h₁
  unfold mostPositiveFixnum at h₂
  exact abs_le.mpr ⟨h₁, h₂.trans (by norm_num)⟩

theorem toLong_of_small {m : ℤ} (h₁ : -4611686018427387904 ≤ m) (h₂ : m ≤ 4611686018427387904) :
    toLong m = m := by
  refine toLong_of_fitsLong ?_
  unfold FitsLong
  omega

theorem longs_facts (hn : InFixnumRange n) (hd : InFixnumRange d) (h0 : d ≠ 0) :
    ∃ q r, (longAbs n).tdiv |d| = q ∧ (longAbs n).tmod |d| = r ∧ longAbs d = |d| ∧
      |n| = q * |d| + r ∧ 0 ≤ r ∧ r < |d| ∧ 0 ≤ q ∧ q ≤ 2305843009213693952 ∧
        |d| ≤ 2305843009213693952 ∧ (n = 0 → q = 0 ∧ r = 0) := by
  rw [longAbs_eq hn, longAbs_eq hd]
  have hpos : 0 < |d| := abs_pos.mpr h0
  refine ⟨_, _, rfl, rfl, rfl, (Int.tdiv_mul_add_tmod _ _).symm, Int.tmod_nonneg _ (abs_nonneg n),
    Int.tmod_lt_of_pos _ hpos, Int.tdiv_nonneg (abs_nonneg n) hpos.le, ?_,
    abs_le_of_inFixnumRange hd, ?_⟩
  · exact (Int.tdiv_le_self _ (abs_nonneg n)).trans (abs_le_of_inFixnumRange hn)
  · rintro rfl
    rw [abs_zero, Int.zero_tdiv, Int.zero_tmod]
    exact ⟨rfl, rfl⟩

theorem sign_cases (n : ℤ) (h0 : d ≠ 0) :
    (sameSignP n d = true ∧ 0 < n ∧ 0 < d) ∨ (sameSignP n d = true ∧ n < 0 ∧ d < 0) ∨
      (sameSignP n d = false ∧ 0 < n ∧ d < 0) ∨ (sameSignP n d = false ∧ n < 0 ∧ 0 < d) ∨
      (sameSignP n d = false ∧ n = 0) := by
  unfold sameSignP
  rw [decide_eq_true_eq, decide_eq_false_iff_not]
  omega

theorem truncateQr_longs (hn : InFixnumRange n) (hd : InFixnumRange d) (h0 : d ≠ 0) :
    TruncateQr n d (truncateLongs n d).1 (truncateLongs n d).2 := by
  obtain ⟨q, r, hq, hr, hlong, heq, hr₀, hr₁, hq₀, hq₁, hb, hzero⟩ := longs_facts hn hd h0
  have hqneg : toLong (-q) = -q := toLong_of_small (by omega) (by omega)
  have hrneg : toLong (-r) = -r := toLong_of_small (by omega) (by omega)
  unfold truncateLongs
  simp only [hlong, hq, hr, hqneg, hrneg]
  rcases sign_cases n h0 with ⟨hs, h, h'⟩ | ⟨hs, h, h'⟩ | ⟨hs, h, h'⟩ | ⟨hs, h, h'⟩ | ⟨hs, h⟩
  · rw [abs_of_pos h, abs_of_pos h'] at heq
    simp only [hs, h.not_gt, Bool.not_true, Bool.false_eq_true, if_false]
    exact ⟨heq, .inl ⟨h.le, hr₀, hr₁⟩⟩
  · rw [abs_of_neg h, abs_of_neg h'] at heq
    simp only [hs, h, Bool.not_true, Bool.false_eq_true, if_false, if_true]
    exact ⟨by linear_combination -heq, .inr ⟨h.le, by omega, by omega⟩⟩
  · rw [abs_of_pos h, abs_of_neg h'] at heq
    simp only [hs, h.not_gt, Bool.not_false, if_false, if_true]
    exact ⟨by linear_combination heq, .inl ⟨h.le, hr₀, hr₁⟩⟩
  · rw [abs_of_neg h, abs_of_pos h'] at heq
    simp only [hs, h, Bool.not_false, if_true]
    exact ⟨by linear_combination -heq, .inr ⟨h.le, by omega, by omega⟩⟩
  · obtain ⟨rfl, rfl⟩ := hzero h
    subst h
    simp only [lt_irrefl, neg_zero, ite_self]
    exact ⟨by ring, .inl ⟨le_rfl, le_rfl, hr₁⟩⟩

/-- A remainder other than zero is moved to the side of the divisor. -/
theorem floorQr_longs (hn : InFixnumRange n) (hd : InFixnumRange d) (h0 : d ≠ 0) :
    FloorQr n d (floorLongs n d).1 (floorLongs n d).2 := by
  obtain ⟨q, r, hq, hr, hlong, heq, hr₀, hr₁, hq₀, hq₁, hb, hzero⟩ := longs_facts hn hd h0
  have hqneg : toLong (-q) = -q := toLong_of_small (by omega) (by omega)
  have hrneg : toLong (-r) = -r := toLong_of_small (by omega) (by omega)
  have hqsucc : toLong (q + 1) = q + 1 := toLong_of_small (by omega) (by omega)
  have hqsucc' : toLong (-(q + 1)) = -(q + 1) := toLong_of_small (by omega) (by omega)
  have hrsub : toLong (r - |d|) = r - |d| := toLong_of_small (by omega) (by omega)
  have hrsub' : toLong (-(r - |d|)) = -(r - |d|) := toLong_of_small (by omega) (by omega)
  unfold floorLongs
  simp only [hlong, hq, hr]
  rcases sign_cases n h0 with ⟨hs, h, h'⟩ | ⟨hs, h, h'⟩ | ⟨hs, h, h'⟩ | ⟨hs, h, h'⟩ | ⟨hs, h⟩
  · rw [abs_of_pos h, abs_of_pos h'] at heq
    rw [abs_of_pos h'] at hr₁
    simp only [hs, h.not_gt, Bool.not_true, Bool.false_eq_true, if_false]
    exact ⟨heq, .inl ⟨hr₀, hr₁⟩⟩
  · rw [abs_of_neg h, abs_of_neg h'] at heq
    rw [abs_of_neg h'] at hr₁
    simp only [hs, h, Bool.not_true, Bool.false_eq_true, if_false, if_true, hrneg]
    exact ⟨by linear_combination -heq, .inr ⟨by omega, by omega⟩⟩
  · rw [abs_of_pos h, abs_of_neg h'] at heq
    simp only [hs, h.not_gt, Bool.not_false, if_false, if_true]
    by_cases hr0 : r = 0
    · simp only [hr0, ne_eq, not_true_eq_false, if_false, hqneg]
      exact ⟨by rw [hr0] at heq; linear_combination heq, .inr ⟨h', le_rfl⟩⟩
    · simp only [ne_eq, hr0, not_false_eq_true, if_true, hqsucc, hqsucc', hrsub]
      rw [abs_of_neg h'] at hr₁ ⊢
      exact ⟨by linear_combination heq, .inr ⟨by omega, by omega⟩⟩
  · rw [abs_of_neg h, abs_of_pos h'] at heq
    simp only [hs, h, Bool.not_false, if_true]
    by_cases hr0 : r = 0
    · simp only [hr0, ne_eq, not_true_eq_false, if_false, hqneg]
      exact ⟨by rw [hr0] at heq; rw [toLong_of_small] <;> linarith,
        .inl ⟨by decide, h'⟩⟩
    · simp only [ne_eq, hr0, not_false_eq_true, if_true, hqsucc, hqsucc', hrsub, hrsub']
      rw [abs_of_pos h'] at hr₁ ⊢
      exact ⟨by linear_combination -heq, .inl ⟨by omega, by omega⟩⟩
  · obtain ⟨rfl, rfl⟩ := hzero h
    subst h
    simp only [hs, Bool.not_false, if_true, ne_eq, not_true_eq_false, if_false, lt_irrefl, hqneg]
    refine ⟨by ring, ?_⟩
    rcases lt_or_gt_of_ne h0 with hd | hd
    · exact .inr ⟨hd, le_rfl⟩
    · exact .inl ⟨le_rfl, hd⟩

theorem ceilQr_longs (hn : InFixnumRange n) (hd : InFixnumRange d) (h0 : d ≠ 0) :
    CeilQr n d (ceilingLongs n d).1 (ceilingLongs n d).2 := by
  obtain ⟨q, r, hq, hr, hlong, heq, hr₀, hr₁, hq₀, hq₁, hb, hzero⟩ := longs_facts hn hd h0
  have hqneg : toLong (-q) = -q := toLong_of_small (by omega) (by omega)
  have hrneg : toLong (-r) = -r := toLong_of_small (by omega) (by omega)
  have hqsucc : toLong (q + 1) = q + 1 := toLong_of_small (by omega) (by omega)
  have hrsub : toLong (r - |d|) = r - |d| := toLong_of_small (by omega) (by omega)
  have hrsub' : toLong (-(r - |d|)) = -(r - |d|) := toLong_of_small (by omega) (by omega)
  have hneg0 : toLong (-0) = 0 := toLong_of_small (by omega) (by omega)
  unfold ceilingLongs
  simp only [hlong, hq, hr]
  rcases sign_cases n h0 with ⟨hs, h, h'⟩ | ⟨hs, h, h'⟩ | ⟨hs, h, h'⟩ | ⟨hs, h, h'⟩ | ⟨hs, h⟩
  · rw [abs_of_pos h, abs_of_pos h'] at heq
    by_cases hr0 : r = 0
    · simp only [hs, hr0, h.not_gt, ne_eq, not_true_eq_false, decide_false, Bool.and_false,
        Bool.false_eq_true, if_false, Bool.not_true]
      exact ⟨by rw [hr0] at heq; exact heq, .inl ⟨by omega, le_rfl⟩⟩
    · simp only [hs, hr0, h.not_gt, ne_eq, not_false_eq_true, decide_true, Bool.and_true, if_true,
        hqsucc, hrsub, if_false, Bool.not_true, Bool.false_eq_true]
      rw [abs_of_pos h'] at hr₁ ⊢
      exact ⟨by linear_combination heq, .inl ⟨by omega, by omega⟩⟩
  · rw [abs_of_neg h, abs_of_neg h'] at heq
    by_cases hr0 : r = 0
    · simp only [hs, hr0, h, ne_eq, not_true_eq_false, decide_false, Bool.and_false,
        Bool.false_eq_true, if_false, Bool.not_true, if_true, hneg0]
      exact ⟨by rw [hr0] at heq; linear_combination -heq, .inr ⟨by omega, by omega⟩⟩
    · simp only [hs, hr0, h, ne_eq, not_false_eq_true, decide_true, Bool.and_true, if_true,
        hqsucc, hrsub, hrsub', if_false, Bool.not_true, Bool.false_eq_true]
      rw [abs_of_neg h'] at hr₁ ⊢
      exact ⟨by linear_combination -heq, .inr ⟨by omega, by omega⟩⟩
  · rw [abs_of_pos h, abs_of_neg h'] at heq
    rw [abs_of_neg h'] at hr₁
    simp only [hs, h.not_gt, Bool.false_and, Bool.false_eq_true, if_false, Bool.not_false, if_true,
      hqneg]
    exact ⟨by linear_combination heq, .inr ⟨hr₀, hr₁⟩⟩
  · rw [abs_of_neg h, abs_of_pos h'] at heq
    rw [abs_of_pos h'] at hr₁
    simp only [hs, h, Bool.false_and, Bool.false_eq_true, if_false, Bool.not_false, if_true,
      hqneg, hrneg]
    exact ⟨by linear_combination -heq, .inl ⟨by omega, by omega⟩⟩
  · obtain ⟨rfl, rfl⟩ := hzero h
    subst h
    simp only [hs, Bool.false_and, Bool.false_eq_true, if_false, Bool.not_false, if_true,
      lt_irrefl, hqneg]
    refine ⟨by ring, ?_⟩
    rcases lt_or_gt_of_ne h0 with hd | hd
    · right
      omega
    · left
      omega

end Longs

/-! ## Rational numbers -/

/-- The divisions of integers give the rounded quotient and what it leaves. -/
structure Rounding.Exact (rounding : Rounding) (round : ℚ → ℤ) : Prop where
  longs : ∀ {n d : ℤ}, InFixnumRange n → InFixnumRange d → d ≠ 0 →
    rounding.longs n d = (round (n / d), n - round (n / d) * d)
  qr : ∀ (n : ℤ) {d : ℤ}, d ≠ 0 → rounding.qr n d = (round (n / d), n - round (n / d) * d)
  int : ∀ z : ℤ, round z = z

theorem truncation_exact : truncation.Exact truncate where
  longs hn hd h0 := by
    have h := truncateQr_longs hn hd h0
    refine Prod.ext (h.truncate_eq h0).symm ?_
    rw [h.truncate_eq h0]
    exact eq_sub_of_add_eq' h.eq.symm
  qr n d h0 := by
    have h := truncateQr_tdiv n h0
    refine Prod.ext (h.truncate_eq h0).symm ?_
    rw [h.truncate_eq h0]
    exact eq_sub_of_add_eq' h.eq.symm
  int z := by
    unfold truncate
    rw [Int.floor_intCast, Int.ceil_intCast, ite_self]

theorem flooring_exact : flooring.Exact Int.floor where
  longs hn hd h0 := by
    have h := floorQr_longs hn hd h0
    refine Prod.ext h.floor_eq.symm ?_
    rw [h.floor_eq]
    exact eq_sub_of_add_eq' h.eq.symm
  qr n d h0 := by
    have h := floorQr_fdiv n h0
    refine Prod.ext h.floor_eq.symm ?_
    rw [h.floor_eq]
    exact eq_sub_of_add_eq' h.eq.symm
  int z := Int.floor_intCast z

theorem ceiling_exact : ceiling.Exact Int.ceil where
  longs hn hd h0 := by
    have h := ceilQr_longs hn hd h0
    refine Prod.ext h.ceil_eq.symm ?_
    rw [h.ceil_eq]
    exact eq_sub_of_add_eq' h.eq.symm
  qr n d h0 := by
    have h := ceilQr_fdiv n h0
    refine Prod.ext h.ceil_eq.symm ?_
    rw [h.ceil_eq]
    exact eq_sub_of_add_eq' h.eq.symm
  int z := Int.ceil_intCast z

section Rational

variable {rounding : Rounding} {round : ℚ → ℤ} {x y : Rational} {a b : ℚ}

theorem divide1_returns (hr : rounding.Exact round) (hx : Represents x a) :
    Returns (rounding.divide1 x) (round a) (a - round a) := by
  obtain ⟨hcx, rfl⟩ := hx
  cases x with
  | fixnum n =>
    have hround : round (Rational.fixnum n).value = n := hr.int n
    rw [hround]
    exact (returns_returnValues ⟨hcx, rfl⟩ represents_zero).congr rfl (sub_self _).symm
  | bignum z =>
    have hround : round (Rational.bignum z).value = z := hr.int z
    rw [hround]
    exact (returns_returnValues ⟨hcx, rfl⟩ represents_zero).congr rfl (sub_self _).symm
  | ratio q =>
    have hden : (q.den : ℤ) ≠ 0 := by
      have := hcx.1
      omega
    have hdenQ : ((q.den : ℤ) : ℚ) ≠ 0 := by exact_mod_cast hden
    have hvalue : (Rational.ratio q).value = q.num / (q.den : ℤ) := rfl
    obtain ⟨z, hz, hrun⟩ := run_twoArgSlash
      (represents_normalizeZ (q.num - round (q.num / (q.den : ℤ)) * q.den))
      (represents_normalizeZ q.den) hdenQ
    refine ⟨normalizeZ (round (q.num / (q.den : ℤ))), z, ?_, ?_, fun t => ?_⟩
    · rw [hvalue]
      exact represents_normalizeZ _
    · have hsub : ((q.num - round (q.num / (q.den : ℤ)) * q.den : ℤ) : ℚ) / (q.den : ℤ) =
          (Rational.ratio q).value - round (Rational.ratio q).value := by
        rw [hvalue]
        push_cast at hdenQ ⊢
        field_simp
      rw [← hsub]
      exact hz
    · show ((twoArgSlash (normalizeZ (rounding.qr q.num q.den).2) (Ratio.denominator q)) >>=
        fun v => Kernel.returnValues (normalizeZ (rounding.qr q.num q.den).1) v).run t = _
      rw [hr.qr q.num hden]
      exact Kernel.run_bind_ok (hrun t) _

theorem divideReals_returns (hr : rounding.Exact round) (hx : Represents x a)
    (hy : Represents y b) (hb : b ≠ 0) :
    Returns (rounding.divideReals x y) (round (a / b)) (a - round (a / b) * b) := by
  obtain ⟨z, hz, hslash⟩ := run_twoArgSlash hx hy hb
  obtain ⟨u, v, hu, hv, hdivide⟩ := divide1_returns hr hz
  have hsub : a - round (a / b) * b = (a / b - round (a / b)) * b := by
    rw [sub_mul, div_mul_cancel₀ _ hb]
  refine ⟨u, if v ≠ .fixnum 0 then v.twoArgStar y else v, hu, ?_, fun t => ?_⟩
  · rw [hsub]
    split_ifs with h0
    · exact twoArgStar_represents hv hy
    · have hzero := hv.eq_zero_iff.mp (not_not.mp h0)
      rw [hzero] at hv ⊢
      rw [zero_mul]
      exact hv
  · unfold Rounding.divideReals
    rw [Kernel.run_bind_ok (hslash t), Kernel.run_bind_ok (hdivide t),
      Kernel.run_bind_ok (Kernel.run_nthValue 1 _), nthValue_setValues, Kernel.run_returnValues,
      setValues_setValues]

theorem returnQr_returns (hr : rounding.Exact round) (n : ℤ) {d : ℤ} (hd : d ≠ 0) :
    Returns (rounding.returnQr n d) (round (n / d)) (n - round (n / d) * d) := by
  unfold Rounding.returnQr
  rw [hr.qr n hd]
  refine (returns_returnValues (represents_normalizeZ _) (represents_normalizeZ _)).congr rfl ?_
  push_cast
  rfl

theorem divide2_returns_integer (hr : rounding.Exact round) (hx : Represents x a)
    (hy : Represents y b) (hb : b ≠ 0) (hdepth : y.depth = 0) :
    Returns (rounding.divide2 x y) (round (a / b)) (a - round (a / b) * b) := by
  have hreals := divideReals_returns hr hx hy hb
  obtain ⟨hcx, rfl⟩ := hx
  obtain ⟨hcy, rfl⟩ := hy
  cases y with
  | fixnum d =>
    have hd : d ≠ 0 := fun h => hb (by rw [h]; exact Int.cast_zero)
    cases x with
    | fixnum n =>
      rw [Rounding.divide2, if_neg hd, hr.longs hcx hcy hd]
      refine (returns_returnValues (represents_makeInteger _) (represents_makeInteger _)).congr
        rfl ?_
      push_cast
      rfl
    | bignum z =>
      rw [Rounding.divide2, if_neg hd]
      exact returnQr_returns hr z hd
    | ratio q =>
      rw [Rounding.divide2]
      exacts [hreals, by simp, by simp, by simp, by simp]
  | bignum w =>
    have hw : w ≠ 0 := fun h => hb (by rw [h]; exact Int.cast_zero)
    cases x with
    | fixnum n =>
      rw [Rounding.divide2]
      exacts [hreals, by simp, by simp, by simp, by simp]
    | bignum z =>
      rw [Rounding.divide2]
      split_ifs
      · exact returnQr_returns hr z hw
      · exact hreals
    | ratio q =>
      rw [Rounding.divide2]
      exacts [hreals, by simp, by simp, by simp, by simp]
  | ratio q => exact absurd hdepth Nat.one_ne_zero

/-- **A rounding whose divisions of integers are exact is exact on rational numbers.** -/
theorem divide2_returns (hr : rounding.Exact round) (hx : Represents x a) (hy : Represents y b)
    (hb : b ≠ 0) : Returns (rounding.divide2 x y) (round (a / b)) (a - round (a / b) * b) := by
  have hreals := divideReals_returns hr hx hy hb
  cases y with
  | fixnum d => exact divide2_returns_integer hr hx hy hb rfl
  | bignum w => exact divide2_returns_integer hr hx hy hb rfl
  | ratio q =>
    cases x with
    | bignum z =>
      rw [Rounding.divide2]
      exacts [hreals, by simp, by simp, by simp, by simp]
    | ratio p =>
      rw [Rounding.divide2]
      exacts [hreals, by simp, by simp, by simp, by simp]
    | fixnum n =>
      -- `n * denominator / numerator` is the same quotient
      have hden : ((q.den : ℤ) : ℚ) ≠ 0 := by
        have := hy.1.1
        exact_mod_cast (by omega : q.den ≠ 0)
      have hvalue : b = (q.num : ℚ) / (q.den : ℤ) := hy.2.symm
      have hnum : (q.num : ℚ) ≠ 0 := by
        intro h
        rw [hvalue, h, zero_div] at hb
        exact hb rfl
      obtain ⟨u, v, hu, -, hrun⟩ := divide2_returns_integer hr
        (twoArgStar_represents hx (represents_normalizeZ q.den)) (represents_normalizeZ q.num) hnum
        (depth_normalizeZ q.num)
      have hquotient : a * (q.den : ℤ) / q.num = a / b := by
        rw [hvalue]
        field_simp
      rw [hquotient] at hu
      refine ⟨u, _, hu, twoArgMinus_represents hx (twoArgStar_represents hu hy), fun t => ?_⟩
      rw [Rounding.divide2]
      refine (Kernel.run_bind_ok (hrun t) _).trans ?_
      rw [Kernel.run_bind_ok (Kernel.run_setValuesLength (-1) _), Kernel.run_returnValues,
        setValues_setValuesLength, setValues_setValues]

theorem divide2_signals (rounding : Rounding) (x : Rational) :
    Signals (rounding.divide2 x (.fixnum 0)) := by
  cases x with
  | fixnum n =>
    rw [Rounding.divide2, if_pos rfl]
    exact ⟨_, fun t => rfl⟩
  | bignum z =>
    rw [Rounding.divide2, if_pos rfl]
    exact ⟨_, fun t => rfl⟩
  | ratio q =>
    rw [Rounding.divide2]
    exacts [(signals_twoArgSlash _).bind _, by simp, by simp, by simp, by simp]

end Rational

/-! ## Remainders -/

def ReturnsValue (c : Kernel Rational) (r : ℚ) : Prop :=
  ∃ y, Represents y r ∧ ∀ t, (c.run t).1 = .ok y

theorem Returns.secondValue {c : Kernel Rational} {q r : ℚ} (h : Returns c q r) :
    ReturnsValue (secondValue c) r := by
  obtain ⟨x, y, -, hy, hrun⟩ := h
  refine ⟨y, hy, fun t => ?_⟩
  unfold Division.secondValue
  rw [Kernel.run_bind_ok (hrun t), Kernel.run_bind_ok (Kernel.run_nthValue 1 _),
    nthValue_setValues, Kernel.run_bind_ok (Kernel.run_clearValues _), Kernel.run_pure]

theorem represents_longRemainder {d r : ℤ} (hd : InFixnumRange d) (h₁ : -|d| < r) (h₂ : r < |d|) :
    Represents (.fixnum r) r := by
  refine ⟨?_, rfl⟩
  have hb := abs_le_of_inFixnumRange hd
  show mostNegativeFixnum ≤ r ∧ r ≤ mostPositiveFixnum
  unfold mostNegativeFixnum mostPositiveFixnum
  omega

section Remainders

variable {x y : Rational} {a b : ℚ}

theorem rem_returns (hx : Represents x a) (hy : Represents y b) (hb : b ≠ 0) :
    ReturnsValue (rem x y) (a - truncate (a / b) * b) := by
  have hvalue := (divide2_returns truncation_exact hx hy hb).secondValue
  unfold rem
  split
  next n d =>
    obtain ⟨hn, rfl⟩ := hx
    obtain ⟨hd, rfl⟩ := hy
    have h0 : d ≠ 0 := fun h => hb (by rw [h]; exact Int.cast_zero)
    have h := truncateQr_longs hn hd h0
    have hr : remLongs n d = n - truncate (n / d) * d :=
      congrArg Prod.snd (truncation_exact.longs hn hd h0)
    rw [if_neg h0]
    refine ⟨_, ?_, fun t => rfl⟩
    have hrep := represents_longRemainder (r := remLongs n d) hd
      (show -|d| < (truncateLongs n d).2 by rcases h.side with h | h <;> omega)
      (show (truncateLongs n d).2 < |d| by rcases h.side with h | h <;> omega)
    have hcast : ((remLongs n d : ℤ) : ℚ) = (n : ℚ) - truncate (n / d) * d := by
      rw [hr]
      push_cast
      rfl
    rw [hcast] at hrep
    exact hrep
  next => exact hvalue

/-- The remainder of two fixnums is the one that `floor-2` computes. -/
theorem modLongs_eq (n d : ℤ) : modLongs n d = (floorLongs n d).2 := by
  unfold modLongs floorLongs
  cases hs : sameSignP n d
  · by_cases hr : (longAbs n).tmod (longAbs d) = 0 <;> simp [hr]
  · simp

theorem mod_returns (hx : Represents x a) (hy : Represents y b) (hb : b ≠ 0) :
    ReturnsValue (mod x y) (a - ⌊a / b⌋ * b) := by
  have hvalue := (divide2_returns flooring_exact hx hy hb).secondValue
  unfold mod
  split
  next n d =>
    obtain ⟨hn, rfl⟩ := hx
    obtain ⟨hd, rfl⟩ := hy
    have h0 : d ≠ 0 := fun h => hb (by rw [h]; exact Int.cast_zero)
    have h := floorQr_longs hn hd h0
    have hr : modLongs n d = n - ⌊(n / d : ℚ)⌋ * d :=
      (modLongs_eq n d).trans (congrArg Prod.snd (flooring_exact.longs hn hd h0))
    rw [if_neg h0]
    refine ⟨_, ?_, fun t => rfl⟩
    have habs := abs_cases d
    have hrep := represents_longRemainder (r := modLongs n d) hd
      (by rw [modLongs_eq]; rcases h.side with h | h <;> omega)
      (by rw [modLongs_eq]; rcases h.side with h | h <;> omega)
    have hcast : ((modLongs n d : ℤ) : ℚ) = (n : ℚ) - ⌊(n / d : ℚ)⌋ * d := by
      rw [hr]
      push_cast
      rfl
    rw [hcast] at hrep
    exact hrep
  next => exact hvalue

theorem Signals.secondValue {c : Kernel Rational} (h : Signals c) : Signals (secondValue c) :=
  h.bind _

theorem rem_signals (x : Rational) : Signals (rem x (.fixnum 0)) := by
  cases x with
  | fixnum n => exact ⟨_, fun t => rfl⟩
  | bignum z => exact (divide2_signals truncation (.bignum z)).secondValue
  | ratio q => exact (divide2_signals truncation (.ratio q)).secondValue

theorem mod_signals (x : Rational) : Signals (mod x (.fixnum 0)) := by
  cases x with
  | fixnum n => exact ⟨_, fun t => rfl⟩
  | bignum z => exact (divide2_signals flooring (.bignum z)).secondValue
  | ratio q => exact (divide2_signals flooring (.ratio q)).secondValue

/-! ## `round` -/

theorem represents_abs (hx : Represents x a) : Represents (abs x) |a| := by
  obtain ⟨hcx, rfl⟩ := hx
  cases x with
  | fixnum n =>
    show Represents (if n < 0 then makeInteger (toLong (-n)) else .fixnum n) |(n : ℚ)|
    split_ifs with h
    · rw [toLong_neg hcx, abs_of_neg (by exact_mod_cast h)]
      have := represents_makeInteger (-n)
      push_cast at this
      exact this
    · rw [abs_of_nonneg (by exact_mod_cast not_lt.mp h)]
      exact ⟨hcx, rfl⟩
  | bignum z =>
    show Represents (if z < 0 then Bignum.negate z else .bignum z) |(z : ℚ)|
    split_ifs with h
    · rw [abs_of_neg (by exact_mod_cast h)]
      exact represents_bignum_negate z
    · rw [abs_of_nonneg (by exact_mod_cast not_lt.mp h)]
      exact ⟨hcx, rfl⟩
  | ratio q =>
    have hden : (0 : ℚ) < q.den := by exact_mod_cast Nat.zero_lt_of_lt hcx.1
    show Represents (if q.num < 0 then Ratio.negate q else .ratio q) |(q.num / q.den : ℚ)|
    split_ifs with h
    · rw [abs_of_neg (div_neg_of_neg_of_pos (by exact_mod_cast h) hden)]
      exact represents_ratio_negate hcx
    · rw [abs_of_nonneg (div_nonneg (by exact_mod_cast not_lt.mp h) hden.le)]
      exact ⟨hcx, rfl⟩

theorem minusp_iff (hx : Represents x a) : minusp x = true ↔ a < 0 := by
  obtain ⟨hcx, rfl⟩ := hx
  cases x with
  | fixnum n => simp [minusp, Rational.value]
  | bignum z => simp [minusp, Rational.value]
  | ratio q =>
    have hden : (0 : ℚ) < q.den := by exact_mod_cast Nat.zero_lt_of_lt hcx.1
    simp [minusp, Rational.value, Mpq.toRat, div_neg_iff, hden, hden.not_gt]

theorem oddp_iff {m : ℤ} (hx : Represents x m) : oddp x = true ↔ ¬Even m := by
  obtain ⟨hcx, hv⟩ := hx
  rw [Int.even_iff]
  cases x with
  | fixnum n =>
    have hn : n = m := by exact_mod_cast (show (n : ℚ) = m from hv)
    simp [oddp, hn]
  | bignum z =>
    have hz : z = m := by exact_mod_cast (show (z : ℚ) = m from hv)
    simp [oddp, hz]
  | ratio q => exact absurd hv (not_isInt_toRat hcx m)

theorem abs_sub_truncate_lt (z : ℚ) : |z - truncate z| < 1 := by
  unfold truncate
  split_ifs
  · rw [Int.self_sub_floor, abs_of_nonneg (Int.fract_nonneg z)]
    exact Int.fract_lt_one z
  · have h₁ := Int.le_ceil z
    have h₂ := Int.ceil_lt_add_one z
    rw [abs_lt]
    constructor <;> linarith

/-- The quotient that `round` chooses from the truncated quotient `m`, the remainder being `e` times
the divisor `b`. -/
def chooseQuotient (m : ℤ) (e b : ℚ) : ℤ :=
  if e * b > |b| / 2 ∨ (e * b = |b| / 2 ∧ ¬Even m) then if b < 0 then m - 1 else m + 1
  else if e * b < -(|b| / 2) ∨ (e * b = -(|b| / 2) ∧ ¬Even m) then
    if b < 0 then m + 1 else m - 1
  else m

theorem compare_half {c : ℚ} (hc : 0 < c) (e : ℚ) :
    (e * c > c / 2 ↔ 1 / 2 < e) ∧ (e * c < -(c / 2) ↔ e < -(1 / 2)) ∧
      (e * c = c / 2 ↔ e = 1 / 2) ∧ (e * c = -(c / 2) ↔ e = -(1 / 2)) := by
  have hhalf : c / 2 = 1 / 2 * c := by ring
  have hhalf' : -(c / 2) = -(1 / 2) * c := by ring
  rw [hhalf', hhalf]
  exact ⟨mul_lt_mul_iff_left₀ hc, mul_lt_mul_iff_left₀ hc, mul_left_inj' hc.ne',
    mul_left_inj' hc.ne'⟩

/-- In terms of the fraction that is left, the sign of the divisor does not matter. -/
theorem nearestEven_chooseQuotient {z : ℚ} {m : ℤ} {e : ℚ} (he : z - m = e) (hlt : |e| < 1)
    (hb : b ≠ 0) : NearestEven z (chooseQuotient m e b) := by
  obtain ⟨h₁, h₂⟩ := abs_lt.mp hlt
  have hup : ∀ k : ℤ, k = m + 1 → 1 / 2 < e ∨ (e = 1 / 2 ∧ ¬Even m) → NearestEven z k := by
    rintro k rfl h
    have hz : z - ((m + 1 : ℤ) : ℚ) = e - 1 := by
      push_cast
      linarith
    unfold NearestEven
    rw [hz, abs_of_neg (by linarith)]
    refine ⟨by rcases h with h | ⟨h, -⟩ <;> linarith, fun hhalf => ?_⟩
    rcases h with h | ⟨-, h⟩
    · linarith
    · exact Int.even_add_one.mpr h
  have hdown : ∀ k : ℤ, k = m - 1 → e < -(1 / 2) ∨ (e = -(1 / 2) ∧ ¬Even m) →
      NearestEven z k := by
    rintro k rfl h
    have hz : z - ((m - 1 : ℤ) : ℚ) = e + 1 := by
      push_cast
      linarith
    unfold NearestEven
    rw [hz, abs_of_pos (by linarith)]
    refine ⟨by rcases h with h | ⟨h, -⟩ <;> linarith, fun hhalf => ?_⟩
    rcases h with h | ⟨-, h⟩
    · linarith
    · exact Int.even_sub_one.mpr h
  have hstay : ¬(1 / 2 < e ∨ (e = 1 / 2 ∧ ¬Even m)) →
      ¬(e < -(1 / 2) ∨ (e = -(1 / 2) ∧ ¬Even m)) → NearestEven z m := by
    intro hu hd
    push Not at hu hd
    unfold NearestEven
    rw [he]
    refine ⟨abs_le.mpr ⟨hd.1, hu.1⟩, fun hhalf => ?_⟩
    rcases (abs_eq (by norm_num)).mp hhalf with h | h
    · exact hu.2 h
    · exact hd.2 h
  unfold chooseQuotient
  rcases lt_or_gt_of_ne hb with hneg | hpos
  · obtain ⟨hgt, hlt', heq, heq'⟩ := compare_half (Left.neg_pos_iff.mpr hneg) (-e)
    rw [neg_mul_neg, ← abs_of_neg hneg] at hgt hlt' heq heq'
    simp only [hgt, hlt', heq, heq', hneg, if_true]
    split_ifs with hd hu
    · exact hdown _ rfl (hd.imp (by intro; linarith) (by rintro ⟨h, h'⟩; exact ⟨by linarith, h'⟩))
    · exact hup _ rfl (hu.imp (by intro; linarith) (by rintro ⟨h, h'⟩; exact ⟨by linarith, h'⟩))
    · refine hstay (fun h => hu ?_) (fun h => hd ?_)
      · exact h.imp (by intro; linarith) (by rintro ⟨h, h'⟩; exact ⟨by linarith, h'⟩)
      · exact h.imp (by intro; linarith) (by rintro ⟨h, h'⟩; exact ⟨by linarith, h'⟩)
  · obtain ⟨hgt, hlt', heq, heq'⟩ := compare_half hpos e
    simp only [abs_of_pos hpos, hgt, hlt', heq, heq', hpos.not_gt, if_false]
    split_ifs with hu hd
    · exact hup _ rfl hu
    · exact hdown _ rfl hd
    · exact hstay hu hd

/-- **`round` returns a nearest integer.** -/
theorem round_returns (hx : Represents x a) (hy : Represents y b) (hb : b ≠ 0) :
    ∃ q : ℤ, NearestEven (a / b) q ∧ Returns (round x y) q (a - q * b) := by
  obtain ⟨tru, rem, htru, hrem, hrun⟩ := divide2_returns truncation_exact hx hy hb
  have hlt := abs_sub_truncate_lt (a / b)
  generalize truncate (a / b) = m at htru hrem hrun hlt
  have hscale : a - m * b = (a / b - m) * b := by
    rw [sub_mul, div_mul_cancel₀ _ hb]
  rw [hscale] at hrem
  refine ⟨chooseQuotient m (a / b - m) b, nearestEven_chooseQuotient rfl hlt hb, ?_⟩
  have hone : Represents (.fixnum 1) 1 := ⟨show InFixnumRange 1 by decide, Int.cast_one⟩
  have htwo : Represents (.fixnum 2) 2 := ⟨show InFixnumRange 2 by decide, Int.cast_ofNat 2⟩
  unfold round
  refine Returns.of_values hrun ?_
  by_cases hzero : rem = .fixnum 0
  · rw [if_pos hzero]
    have he := hrem.eq_zero_iff.mp hzero
    have hq : chooseQuotient m (a / b - m) b = m := by
      have habs : 0 < |b| / 2 := half_pos (abs_pos.mpr hb)
      unfold chooseQuotient
      rw [he, if_neg, if_neg]
      · rintro (h | ⟨h, -⟩) <;> linarith
      · rintro (h | ⟨h, -⟩) <;> linarith
    rw [hq]
    exact (returns_returnValues htru hrem).congr rfl hscale.symm
  · rw [if_neg hzero]
    obtain ⟨thresh, hthresh, hslash⟩ := run_twoArgSlash (represents_abs hy) htwo two_ne_zero
    have hminus := negate_represents hthresh
    have hup : (gtRational rem thresh || (equalsRational rem thresh && oddp tru)) = true ↔
        (a / b - m) * b > |b| / 2 ∨ ((a / b - m) * b = |b| / 2 ∧ ¬Even m) := by
      rw [Bool.or_eq_true, Bool.and_eq_true, gtRational_iff hrem hthresh,
        equalsRational_iff hrem hthresh, oddp_iff htru]
    have hdown : (ltRational rem thresh.negate || (equalsRational rem thresh.negate && oddp tru)) =
        true ↔ (a / b - m) * b < -(|b| / 2) ∨ ((a / b - m) * b = -(|b| / 2) ∧ ¬Even m) := by
      rw [Bool.or_eq_true, Bool.and_eq_true, ltRational_iff hrem hminus,
        equalsRational_iff hrem hminus, oddp_iff htru]
    have hmore : Returns (Kernel.returnValues (tru.twoArgPlus (.fixnum 1)) (rem.twoArgMinus y))
        ((m + 1 : ℤ) : ℚ) (a - (m + 1 : ℤ) * b) :=
      (returns_returnValues (twoArgPlus_represents htru hone)
        (twoArgMinus_represents hrem hy)).congr (by push_cast; ring)
        (by rw [← hscale]; push_cast; ring)
    have hless : Returns (Kernel.returnValues (tru.twoArgMinus (.fixnum 1)) (rem.twoArgPlus y))
        ((m - 1 : ℤ) : ℚ) (a - (m - 1 : ℤ) * b) :=
      (returns_returnValues (twoArgMinus_represents htru hone)
        (twoArgPlus_represents hrem hy)).congr (by push_cast; ring)
        (by rw [← hscale]; push_cast; ring)
    refine Returns.of_run hslash ?_
    unfold chooseQuotient
    simp only [hup, hdown, minusp_iff hy]
    split_ifs
    · exact hless
    · exact hmore
    · exact hmore
    · exact hless
    · exact (returns_returnValues htru hrem).congr rfl hscale.symm

theorem round_signals (x : Rational) : Signals (round x (.fixnum 0)) :=
  (divide2_signals truncation x).bind _

/-- **Division with rounding is exact on rational numbers**, and division by zero is an error that
leaves the values of the thread as they were. -/
theorem division_exact (hx : Represents x a) (hy : Represents y b) :
    (b ≠ 0 →
      Returns (truncate2 x y) (truncate (a / b)) (a - truncate (a / b) * b) ∧
      Returns (floor2 x y) ⌊a / b⌋ (a - ⌊a / b⌋ * b) ∧
      Returns (ceiling2 x y) ⌈a / b⌉ (a - ⌈a / b⌉ * b) ∧
      ReturnsValue (rem x y) (a - truncate (a / b) * b) ∧
      ReturnsValue (mod x y) (a - ⌊a / b⌋ * b) ∧
      ∃ q : ℤ, NearestEven (a / b) q ∧ Returns (round x y) q (a - q * b)) ∧
    (b = 0 → Signals (truncate2 x y) ∧ Signals (floor2 x y) ∧ Signals (ceiling2 x y) ∧
      Signals (rem x y) ∧ Signals (mod x y) ∧ Signals (round x y)) := by
  constructor
  · intro hb
    exact ⟨divide2_returns truncation_exact hx hy hb, divide2_returns flooring_exact hx hy hb,
      divide2_returns ceiling_exact hx hy hb, rem_returns hx hy hb, mod_returns hx hy hb,
      round_returns hx hy hb⟩
  · intro hb
    obtain rfl := hy.eq_zero_iff.mpr hb
    exact ⟨divide2_signals truncation x, divide2_signals flooring x, divide2_signals ceiling x,
      rem_signals x, mod_signals x, round_signals x⟩

end Remainders

/-- The most negative fixnum divided by -1 is a bignum. -/
theorem division_exact_mostNegativeFixnum :
    Returns (truncate2 (.fixnum mostNegativeFixnum) (.fixnum (-1))) 2305843009213693952 0 := by
  have hx : Represents (.fixnum mostNegativeFixnum) (-2305843009213693952) :=
    ⟨show InFixnumRange mostNegativeFixnum by decide,
      by norm_num [Rational.value, mostNegativeFixnum]⟩
  have hy : Represents (.fixnum (-1)) (-1) :=
    ⟨show InFixnumRange (-1) by decide, by norm_num [Rational.value]⟩
  have h := ((division_exact hx hy).1 (by norm_num)).1
  have htruncate : truncate (-2305843009213693952 / -1) = 2305843009213693952 := by
    norm_num [truncate]
  rw [htruncate] at h
  exact h.congr (by norm_num) (by norm_num)

end Xcl.Division
