import Xcl.Types.Subtypep
import Xcl.Types.Table

/-!
# `subtypep` on integer types

* **`percentSubtypep_integer`**: what `subtypep` returns for two integer types.
-/

namespace Xcl.Types

variable {up : Upgrading}

/-! ## Intervals -/

theorem lowOk_iff {low1 low2 : Bound ℤ} (h1 : low1.Closed) (h2 : low2.Closed) :
    lowOk (normalizeLow low1.toRat) (normalizeLow low2.toRat) = true ↔
      ∀ n, low1.Below n → low2.Below n := by
  cases low1 with
  | excl n => exact absurd rfl (h1 n)
  | star =>
    cases low2 with
    | excl m => exact absurd rfl (h2 m)
    | star => exact ⟨fun _ _ h => h, fun _ => rfl⟩
    | incl m =>
      refine ⟨fun h => absurd h Bool.false_ne_true, fun h => ?_⟩
      have hbelow : m ≤ m - 1 := h (m - 1) trivial
      omega
  | incl n =>
    cases low2 with
    | excl m => exact absurd rfl (h2 m)
    | star => exact ⟨fun _ _ _ => trivial, fun _ => rfl⟩
    | incl m =>
      have hlow : lowOk (normalizeLow (Bound.incl n).toRat) (normalizeLow (Bound.incl m).toRat) =
          !decide ((n : ℚ) < (m : ℚ)) := rfl
      rw [hlow]
      simp only [Bool.not_eq_true', decide_eq_false_iff_not, Int.cast_lt, not_lt]
      exact ⟨fun h k hk => h.trans hk, fun h => h n le_rfl⟩

theorem highOk_iff {high1 high2 : Bound ℤ} (h1 : high1.Closed) (h2 : high2.Closed) :
    highOk (normalizeHigh high1.toRat) (normalizeHigh high2.toRat) = true ↔
      ∀ n, high1.Above n → high2.Above n := by
  cases high1 with
  | excl n => exact absurd rfl (h1 n)
  | star =>
    cases high2 with
    | excl m => exact absurd rfl (h2 m)
    | star => exact ⟨fun _ _ h => h, fun _ => rfl⟩
    | incl m =>
      refine ⟨fun h => absurd h Bool.false_ne_true, fun h => ?_⟩
      have habove : m + 1 ≤ m := h (m + 1) trivial
      omega
  | incl n =>
    cases high2 with
    | excl m => exact absurd rfl (h2 m)
    | star => exact ⟨fun _ _ _ => trivial, fun _ => rfl⟩
    | incl m =>
      have hhigh : highOk (normalizeHigh (Bound.incl n).toRat)
          (normalizeHigh (Bound.incl m).toRat) = !decide ((n : ℚ) > (m : ℚ)) := rfl
      rw [hhigh]
      simp only [Bool.not_eq_true', decide_eq_false_iff_not, gt_iff_lt, Int.cast_lt, not_lt]
      exact ⟨fun h k hk => le_trans hk h, fun h => h n le_rfl⟩

theorem between_subset_iff {low1 high1 low2 high2 : Bound ℤ}
    (hne : ∃ n, Between low1 high1 n) :
    ((∀ n, low1.Below n → low2.Below n) ∧ ∀ n, high1.Above n → high2.Above n) ↔
      ∀ n, Between low1 high1 n → Between low2 high2 n := by
  obtain ⟨k, hlow, hhigh⟩ := hne
  refine ⟨fun h n hn => ⟨h.1 n hn.1, h.2 n hn.2⟩, fun h => ⟨fun n hn => ?_, fun n hn => ?_⟩⟩
  · -- the smaller of `n` and `k` is in the interval
    have hmin : low1.Below (min n k) := by
      rcases min_choice n k with hmin | hmin <;> rw [hmin]
      · exact hn
      · exact hlow
    have hsub := (h (min n k) ⟨hmin, Bound.above_of_le hhigh (min_le_right n k)⟩).1
    exact Bound.below_of_le hsub (min_le_left n k)
  · have hmax : high1.Above (max n k) := by
      rcases max_choice n k with hmax | hmax <;> rw [hmax]
      · exact hn
      · exact hhigh
    have hsub := (h (max n k) ⟨Bound.below_of_le hlow (le_max_right n k), hmax⟩).2
    exact Bound.above_of_le hsub (le_max_left n k)

/-- **The answer of `sub-interval-p`** for two intervals of integers, the first one not empty. -/
theorem subIntervalP_iff {low1 high1 low2 high2 : Bound ℤ} (h1 : low1.Closed ∧ high1.Closed)
    (h2 : low2.Closed ∧ high2.Closed) (hne : ∃ n, Between low1 high1 n) :
    subIntervalP [low1.toRat, high1.toRat] [low2.toRat, high2.toRat] = true ↔
      ∀ n, Between low1 high1 n → Between low2 high2 n := by
  rw [← between_subset_iff hne, ← lowOk_iff h1.1 h2.1, ← highOk_iff h1.2 h2.2,
    ← Bool.and_eq_true]
  rfl

/-! ## The answers -/

/-- The names of integer types are in the tables as their bounds are. -/
theorem subtypepAtOnce_integer {a b : IntegerForm} {answer : Answer}
    (h : subtypepAtOnce a.specifier b.specifier = some answer) :
    ¬ b.Apart ∧ answer = ⟨subIntervalP [a.limits.1.toRat, a.limits.2.toRat]
      [b.limits.1.toRat, b.limits.2.toRat], true⟩ := by
  cases a with
  | and => cases b with
    | and => cases h
    | simple b => cases b <;> cases h
  | simple a => cases b with
    | and => cases a <;> cases h
    | simple b =>
      refine ⟨id, ?_⟩
      cases a <;> cases b <;> cases h <;> decide

theorem subtypepCanonical_integer (typep : Object → Specifier → Bool)
    (percentSubtypep : Specifier → Specifier → Cache → Reply) {a b : IntegerForm}
    (ha : ¬ a.Apart) (hne : ∃ n, Between a.limits.1 a.limits.2 n) (cache : Cache) :
    subtypepCanonical typep percentSubtypep a.canonicalType b.canonicalType cache =
      some (if b.Apart then unknown else ⟨subIntervalP [a.limits.1.toRat, a.limits.2.toRat]
        [b.limits.1.toRat, b.limits.2.toRat], true⟩, cache) := by
  rw [IntegerForm.canonicalType, IntegerForm.canonicalType, if_neg ha]
  by_cases hb : b.Apart
  · rw [if_pos hb, if_pos hb]
    rfl
  · rw [if_neg hb, if_neg hb]
    by_cases hequal : (integerType a.limits.1 a.limits.2).equal
        (integerType b.limits.1 b.limits.2) = true
    · have hlimits : a.limits = b.limits := by
        simpa [integerType, Specifier.equal, Prod.ext_iff] using hequal
      have hyes : subIntervalP [a.limits.1.toRat, a.limits.2.toRat]
          [b.limits.1.toRat, b.limits.2.toRat] = true := by
        rw [subIntervalP_iff a.closed_limits b.closed_limits hne, hlimits]
        exact fun _ h => h
      rw [hyes]
      exact if_pos hequal
    · exact if_neg hequal

/-- The integers of a type are among those of another one. -/
def Subset (up : Upgrading) (a b : IntegerForm) : Prop :=
  ∀ x, a.specifier.Has up .standard x → b.specifier.Has up .standard x

theorem subset_iff {a b : IntegerForm} (ha : ¬ a.Apart)
    (hne : ∃ n, Between a.limits.1 a.limits.2 n) :
    Subset up a b ↔ ¬ b.Apart ∧ subIntervalP [a.limits.1.toRat, a.limits.2.toRat]
      [b.limits.1.toRat, b.limits.2.toRat] = true := by
  rw [subIntervalP_iff a.closed_limits b.closed_limits hne]
  constructor
  · intro h
    have hints : ∀ n, Between a.limits.1 a.limits.2 n →
        ¬ b.Apart ∧ Between b.limits.1 b.limits.2 n :=
      fun n hn => b.has_iff.mp (h (.integer 0 n) (a.has_iff.mpr ⟨ha, hn⟩))
    obtain ⟨k, hk⟩ := hne
    exact ⟨(hints k hk).1, fun n hn => (hints n hn).2⟩
  · rintro ⟨hb, h⟩ x hx
    obtain ⟨address, n, rfl⟩ := a.integer_of_has hx
    exact b.has_iff.mpr ⟨hb, h n (a.has_iff.mp hx).2⟩

/-- **`subtypep` decides inclusion of integer types**: after any calls, of any types, for a first
type that has an object, `subtypep` returns true exactly if the integers of the first type are
among those of the second one. The second value is true, unless the second type is a conjunction
of two types between which there is a gap: then both values are false. -/
theorem percentSubtypep_integer (up : Upgrading) (typep : Object → Specifier → Bool)
    (types : List Specifier) (depth : ℕ) (a b : IntegerForm)
    (hne : ∃ x, a.specifier.Has up .standard x) :
    ∃ answer cache,
      percentSubtypep typep (depth + 1) a.specifier b.specifier (canonicalTypes types) =
        some (answer, cache) ∧
      (Subset up a b → answer = yes) ∧
      (¬ Subset up a b → answer = if b.Apart then unknown else no) := by
  have ⟨ha, hne⟩ : ¬ a.Apart ∧ ∃ n, Between a.limits.1 a.limits.2 n := by
    obtain ⟨x, hx⟩ := hne
    obtain ⟨address, n, rfl⟩ := a.integer_of_has hx
    exact (a.has_iff.mp hx).imp id fun h => ⟨n, h⟩
  have hsubset := @subset_iff up a b ha hne
  -- the answer from the limits
  have hvalue : ∃ cache,
      percentSubtypep typep (depth + 1) a.specifier b.specifier (canonicalTypes types) =
        some (if b.Apart then unknown else ⟨subIntervalP [a.limits.1.toRat, a.limits.2.toRat]
          [b.limits.1.toRat, b.limits.2.toRat], true⟩, cache) := by
    rw [percentSubtypep]
    split
    · rename_i answer hanswer
      obtain ⟨hb, rfl⟩ := subtypepAtOnce_integer hanswer
      exact ⟨_, by rw [if_neg hb]⟩
    · obtain ⟨hcanonical1, hcache1⟩ :=
        canonicalizeType_known (known_form a) (exact_canonicalTypes types)
      obtain ⟨hcanonical2, -⟩ := canonicalizeType_known (known_form b) hcache1
      dsimp only
      rw [hcanonical1, hcanonical2, canonical_form, canonical_form,
        subtypepCanonical_integer typep _ ha hne]
      exact ⟨_, rfl⟩
  obtain ⟨cache, hcall⟩ := hvalue
  refine ⟨_, cache, hcall, fun h => ?_, fun h => ?_⟩
  · rw [hsubset] at h
    rw [if_neg h.1, h.2]
    rfl
  · rw [hsubset] at h
    by_cases hb : b.Apart
    · rw [if_pos hb, if_pos hb]
    · rw [if_neg hb, if_neg hb, Bool.eq_false_iff.mpr fun hyes => h ⟨hb, hyes⟩]
      rfl

theorem percentSubtypep_integer_bit :
    ∃ answer cache,
      percentSubtypep (fun _ _ => false) 1 (IntegerForm.simple .bit).specifier
        (IntegerForm.and (.unsignedBytes 8) (.signedBytes 8)).specifier
        (canonicalTypes [.atom .fixnum]) = some (answer, cache) ∧
      (Subset .smallest (.simple .bit) (.and (.unsignedBytes 8) (.signedBytes 8)) →
        answer = yes) ∧
      (¬ Subset .smallest (.simple .bit) (.and (.unsignedBytes 8) (.signedBytes 8)) →
        answer = if (IntegerForm.and (.unsignedBytes 8) (.signedBytes 8)).Apart then unknown
          else no) :=
  percentSubtypep_integer .smallest (fun _ _ => false) [.atom .fixnum] 0 (.simple .bit)
    (.and (.unsignedBytes 8) (.signedBytes 8)) ⟨.integer 0 1, 0, 1, rfl, by decide⟩

/-- `(subtypep 'bit '(and (integer 0 3) (integer 5 9)))` returns `(values nil nil)`. -/
theorem not_percentSubtypep_integer :
    ¬ ∀ (up : Upgrading) (typep : Object → Specifier → Bool) (types : List Specifier) (depth : ℕ)
      (a b : IntegerForm), (∃ x, a.specifier.Has up .standard x) →
      ∃ answer cache,
        percentSubtypep typep (depth + 1) a.specifier b.specifier (canonicalTypes types) =
          some (answer, cache) ∧
        (Subset up a b → answer = yes) ∧ (¬ Subset up a b → answer = no) := by
  intro h
  obtain ⟨answer, cache, hcall, hyes, hno⟩ := h .smallest (fun _ _ => false) [] 0 (.simple .bit)
    (.and (.interval (.incl 0) (.incl 3)) (.interval (.incl 5) (.incl 9)))
    ⟨.integer 0 1, 0, 1, rfl, by decide⟩
  cases hcall
  by_cases hsubset : Subset .smallest (.simple .bit)
      (.and (.interval (.incl 0) (.incl 3)) (.interval (.incl 5) (.incl 9)))
  · cases hyes hsubset
  · cases hno hsubset

end Xcl.Types
