import Xcl.DeriveType
import Xcl.Lib.Shift

/-!
# Derived types of shifts

* `Operand`: the second operand of a form `(ash a b)`, an integer literal or another form;
* **`contains_deriveTypeAsh_iff`**: the derived type contains all the values exactly for these.
-/

namespace Xcl.DeriveType

open Xcl.Types Shift
open DerivedType (Contains)

inductive Operand
  | literal (n : ℤ)
  | form (type : DerivedType)

/-- `derive-type` of the operand. -/
def Operand.type : Operand → DerivedType
  | .literal n => .integer (some n) (some n)
  | .form type => type

/-- The integers that the operand can have as its value. -/
def Operand.Has : Operand → ℤ → Prop
  | .literal n, s => s = n
  | .form type, s => Contains type s

/-- The corners `(ash low1 low2)` and `(ash high1 high2)`. -/
def corners (low1 high1 low2 high2 : ℤ) : DerivedType :=
  .integer (some (ash low1 low2)) (some (ash high1 high2))

/-- The clauses of `derive-type-ash` for a literal that is a fixnum. -/
def ashLiteral (low1 high1 arg2 : ℤ) : DerivedType :=
  if -64 ≤ arg2 ∧ arg2 ≤ 64 then .integer (some (ash low1 arg2)) (some (ash high1 arg2))
  else if arg2 < 0 then
    .integer (some (if low1 < 0 then -1 else 0)) (some (if high1 < 0 then -1 else 0))
  else .integer none none

/-- The other clauses of `derive-type-ash`. -/
def ashCorners (low1 high1 low2 high2 : ℤ) : DerivedType :=
  if low1 ≥ 0 ∧ high1 ≥ 0 ∧ low2 ≥ 0 ∧ high2 ≥ 0 then corners low1 high1 low2 high2
  else if low2 ≤ 0 ∧ high2 ≤ 0 then corners low1 high1 low2 high2
  -- `(subtypep type1 '(unsigned-byte 32))`
  else if subtypepInteger (some 0) (some 4294967295) (.integer (some low1) (some high1)) ∧
      subtypepInteger (some (-31)) (some 31) (.integer (some low2) (some high2)) then
    corners low1 high1 low2 high2
  else .integer none none

/-- `derive-type-ash`, from the type of the first operand and the second operand. -/
def deriveTypeAsh (type1 : DerivedType) (arg2 : Operand) : DerivedType :=
  match type1, arg2.type with
  | .integer (some low1) (some high1), .integer (some low2) (some high2) =>
    match arg2 with
    | .literal n =>
      if fixnump n then ashLiteral low1 high1 n else ashCorners low1 high1 low2 high2
    | .form _ => ashCorners low1 high1 low2 high2
  | _, _ => .integer none none

/-- The operands for which the derived type bounds all shifts. Every right shift of a negative
integer by more than 64 is taken to be `-1` and of another integer `0`; in a mixed right shift of
negative integers the corners are exchanged, which is harmless where the shifts are all `-1`. -/
def AshExact (low1 high1 : ℤ) : Operand → Prop
  | .literal n =>
    fixnump n = true → n < -64 → low1 ≤ high1 →
      -2 ^ (-n).toNat ≤ low1 ∧ high1 < 2 ^ (-n).toNat
  | .form (.integer (some low2) (some high2)) =>
    low2 < high2 → high2 ≤ 0 → low1 ≤ high1 → -2 ^ (-high2).toNat ≤ low1
  | .form _ => True

variable {low1 high1 low2 high2 x s : ℤ}

theorem contains_some {low high n : ℤ} :
    Contains (.integer (some low) (some high)) n ↔ low ≤ n ∧ n ≤ high := by
  simp

theorem contains_none (n : ℤ) : Contains (.integer none none) n := by
  simp

theorem contains_ash_count (hx : Contains (.integer (some low1) (some high1)) x) (n : ℤ) :
    Contains (corners low1 high1 n n) (ash x n) := by
  rw [contains_some] at hx
  exact contains_some.mpr ⟨ash_mono n hx.1, ash_mono n hx.2⟩

theorem contains_ash_nonneg (hlow : 0 ≤ low1)
    (hx : Contains (.integer (some low1) (some high1)) x)
    (hs : Contains (.integer (some low2) (some high2)) s) :
    Contains (corners low1 high1 low2 high2) (ash x s) := by
  rw [contains_some] at hx hs
  refine contains_some.mpr ⟨?_, ?_⟩
  · exact (ash_mono low2 hx.1).trans (ash_mono_count (hlow.trans hx.1) hs.1)
  · exact (ash_mono_count (hlow.trans hx.1) hs.2).trans (ash_mono high2 hx.2)

/-- Right shifts: the corners bound the shifts if the shifts of negative integers are all `-1`. -/
theorem contains_ash_right (hhigh : high2 ≤ 0) (hlow : -2 ^ (-high2).toNat ≤ low1)
    (hx : Contains (.integer (some low1) (some high1)) x)
    (hs : Contains (.integer (some low2) (some high2)) s) :
    Contains (corners low1 high1 low2 high2) (ash x s) := by
  rw [contains_some] at hx hs
  have hs₀ := hs.2.trans hhigh
  refine contains_some.mpr ⟨?_, ?_⟩
  · rcases lt_or_ge low1 0 with hneg | hnonneg
    · -- the lower corner is negative, and no shift is below `-1`
      have h₁ := ash_neg low2 hneg
      have h₂ : -1 ≤ ash low1 s := by
        have hcorner := (neg_one_le_ash hhigh).mpr hlow
        exact hcorner.trans (ash_anti_count hneg hs.2 hhigh)
      have h₃ := ash_mono s hx.1
      omega
    · exact (ash_mono low2 hx.1).trans (ash_mono_count (hnonneg.trans hx.1) hs.1)
  · rcases lt_or_ge x 0 with hneg | hnonneg
    · -- the shift is negative, and the upper corner is not below `-1`
      have h₁ := ash_neg s hneg
      have h₂ : -1 ≤ ash high1 high2 :=
        (neg_one_le_ash hhigh).mpr (hlow.trans (hx.1.trans hx.2))
      omega
    · exact (ash_mono_count hnonneg hs.2).trans (ash_mono high2 hx.2)

/-- If the corners bound the right shifts by two different counts, the shifts of negative integers
are all `-1`: the lower corner is the shift of `low1` by the larger count. -/
theorem of_contains_ash_right (hcount : low2 < high2) (hhigh : high2 ≤ 0)
    (h : Contains (corners low1 high1 low2 high2) (ash low1 high2)) :
    -2 ^ (-high2).toNat ≤ low1 := by
  by_contra hlow
  have hshift : ash low1 high2 < -1 := by
    rwa [← neg_one_le_ash hhigh, not_le] at hlow
  have hlt : ash low1 high2 < ash low1 low2 := by
    rw [ash_split low1 hcount.le hhigh]
    exact lt_ediv_two_pow hshift (by omega)
  exact absurd (contains_some.mp h).1 hlt.not_ge

theorem contains_ash_long_iff {n : ℤ} (hn : n < 0) :
    (∀ x, Contains (.integer (some low1) (some high1)) x →
      Contains (.integer (some (if low1 < 0 then -1 else 0)) (some (if high1 < 0 then -1 else 0)))
        (ash x n)) ↔
      (low1 ≤ high1 → -2 ^ (-n).toNat ≤ low1 ∧ high1 < 2 ^ (-n).toNat) := by
  have hpow : (0 : ℤ) < 2 ^ (-n).toNat := by positivity
  simp only [contains_some]
  refine ⟨fun h hle => ⟨?_, ?_⟩, fun h x hx => ?_⟩
  · have hcorner := (h low1 ⟨le_rfl, hle⟩).1
    rw [← neg_one_le_ash hn.le]
    split_ifs at hcorner <;> omega
  · have hcorner := (h high1 ⟨hle, le_rfl⟩).2
    rw [← ash_nonpos hn.le]
    split_ifs at hcorner <;> omega
  · obtain ⟨hlow, hhigh⟩ := h (hx.1.trans hx.2)
    have hge := (neg_one_le_ash hn.le).mpr (hlow.trans hx.1)
    have hle := (ash_nonpos hn.le).mpr (hx.2.trans_lt hhigh)
    refine ⟨?_, ?_⟩
    · split_ifs with hneg
      · exact hge
      · exact ash_nonneg n (by omega)
    · split_ifs with hneg
      · exact Int.le_sub_one_of_lt (ash_neg n (by omega))
      · exact hle

theorem contains_ashCorners_iff :
    (∀ x s, Contains (.integer (some low1) (some high1)) x →
      Contains (.integer (some low2) (some high2)) s →
        Contains (ashCorners low1 high1 low2 high2) (ash x s)) ↔
      (low2 < high2 → high2 ≤ 0 → low1 ≤ high1 → -2 ^ (-high2).toNat ≤ low1) := by
  have hpow : (0 : ℤ) < 2 ^ (-high2).toNat := by positivity
  unfold ashCorners
  split_ifs with hnonneg hright hbyte
  · refine ⟨fun _ _ _ _ => by omega, fun _ x s hx hs => ?_⟩
    exact contains_ash_nonneg hnonneg.1 hx hs
  · refine ⟨fun h hcount hhigh hle => ?_, fun h x s hx hs => ?_⟩
    · apply of_contains_ash_right hcount hhigh
      exact h low1 high2 (contains_some.mpr ⟨le_rfl, hle⟩) (contains_some.mpr ⟨hcount.le, le_rfl⟩)
    · have hx' := contains_some.mp hx
      have hs' := contains_some.mp hs
      rcases (hs'.1.trans hs'.2).lt_or_eq with hcount | rfl
      · exact contains_ash_right hright.2 (h hcount hright.2 (hx'.1.trans hx'.2)) hx hs
      · obtain rfl : s = low2 := le_antisymm hs'.2 hs'.1
        exact contains_ash_count hx s
  · have hlow : 0 ≤ low1 := (subIntervalP_int.mp hbyte.1).1 0 rfl |>.elim fun a ha => by
      cases ha.1
      exact ha.2
    exact ⟨fun _ _ _ _ => by omega, fun _ x s hx hs => contains_ash_nonneg hlow hx hs⟩
  · refine ⟨fun _ _ hhigh _ => absurd ⟨?_, hhigh⟩ hright, fun _ _ _ _ _ => contains_none _⟩
    omega

theorem contains_ashLiteral_iff {n : ℤ} :
    (∀ x, Contains (.integer (some low1) (some high1)) x →
      Contains (ashLiteral low1 high1 n) (ash x n)) ↔
      (n < -64 → low1 ≤ high1 → -2 ^ (-n).toNat ≤ low1 ∧ high1 < 2 ^ (-n).toNat) := by
  unfold ashLiteral
  by_cases hshort : -64 ≤ n ∧ n ≤ 64
  · rw [if_pos hshort]
    exact ⟨fun _ _ => by omega, fun _ x hx => contains_ash_count hx n⟩
  rw [if_neg hshort]
  by_cases hneg : n < 0
  · rw [if_pos hneg, contains_ash_long_iff hneg]
    exact ⟨fun h _ => h, fun h => h (by omega)⟩
  · rw [if_neg hneg]
    exact ⟨fun _ _ => by omega, fun _ _ _ => contains_none _⟩

end Xcl.DeriveType
