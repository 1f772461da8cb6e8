import Xcl.Types.Canonical

/-!
# Types of integers

* `IntegerType`, `IntegerForm`: the type specifiers of integers, and conjunctions of two of them;
* `IntegerType.limits`, `IntegerForm.limits`: their bounds, which are inclusive.
-/

namespace Xcl.Types

open Numbers (InFixnumRange mostNegativeFixnum mostPositiveFixnum)

inductive IntegerType
  | integer | fixnum | bit | unsignedByte
  | unsignedBytes (n : ℕ+)
  | signedBytes (n : ℕ+)
  | mod (n : ℤ)
  | interval (low high : Bound ℤ)

namespace IntegerType

def specifier : IntegerType → Specifier
  | integer => .atom .integer
  | fixnum => .atom .fixnum
  | bit => .atom .bit
  | unsignedByte => .atom .unsignedByte
  | unsignedBytes n => .unsignedByte (some (.bits n))
  | signedBytes n => .signedByte (some (.bits n))
  | mod n => .mod n
  | interval low high => .integer [low, high]

def limits : IntegerType → Bound ℤ × Bound ℤ
  | integer => (.star, .star)
  | fixnum => (.incl mostNegativeFixnum, .incl mostPositiveFixnum)
  | bit => (.incl 0, .incl 1)
  | unsignedByte => (.incl 0, .star)
  | unsignedBytes n => (.incl 0, .incl (2 ^ (n : ℕ) - 1))
  | signedBytes n => (.incl (-2 ^ ((n : ℕ) - 1)), .incl (2 ^ ((n : ℕ) - 1) - 1))
  | mod n => (.incl 0, .incl (n - 1))
  | interval low high => (inclusiveLow low, inclusiveHigh high)

end IntegerType

inductive IntegerForm
  | simple (type : IntegerType)
  | and (type1 type2 : IntegerType)

namespace IntegerForm

def specifier : IntegerForm → Specifier
  | simple type => type.specifier
  | and type1 type2 => .and (.ofList [type1.specifier, type2.specifier])

/-- A conjunction of two types between which there is a gap: a lower bound lies above an upper
bound. -/
def Apart : IntegerForm → Prop
  | simple _ => False
  | and type1 type2 =>
    type2.limits.1.gt type1.limits.2 = true ∨ type1.limits.1.gt type2.limits.2 = true

instance : DecidablePred Apart := fun form => by
  cases form <;> unfold Apart <;> infer_instance

/-- The bounds in the canonical type of a type that is not apart. -/
def limits : IntegerForm → Bound ℤ × Bound ℤ
  | simple type => type.limits
  | and type1 type2 =>
    (maxLow type1.limits.1 type2.limits.1, minHigh type1.limits.2 type2.limits.2)

def canonicalType (form : IntegerForm) : Specifier :=
  if form.Apart then .atom .nil else integerType form.limits.1 form.limits.2

end IntegerForm

/-- The integer lies between two bounds. -/
def Between (low high : Bound ℤ) (n : ℤ) : Prop := low.Below n ∧ high.Above n

def Bound.Closed (bound : Bound ℤ) : Prop := ∀ n, bound ≠ .excl n

variable {up : Upgrading}

/-! ## Intervals -/

/-- Smaller numbers than one that respects an upper bound do so too. -/
theorem Bound.above_of_le {α : Type} [Preorder α] {high : Bound α} {x y : α} (h : high.Above x)
    (hle : y ≤ x) : high.Above y := by
  cases high with
  | star => trivial
  | incl n => exact le_trans hle h
  | excl n => exact lt_of_le_of_lt hle h

theorem Bound.below_of_le {α : Type} [Preorder α] {low : Bound α} {x y : α} (h : low.Below x)
    (hle : x ≤ y) : low.Below y := by
  cases low with
  | star => trivial
  | incl n => exact le_trans h hle
  | excl n => exact lt_of_lt_of_le h hle

theorem IntegerType.closed_limits (type : IntegerType) :
    type.limits.1.Closed ∧ type.limits.2.Closed := by
  cases type with
  | interval low high =>
    refine ⟨fun n => ?_, fun n => ?_⟩
    · cases low <;> simp [limits, inclusiveLow]
    · cases high <;> simp [limits, inclusiveHigh]
  | _ => exact ⟨fun _ => by simp [limits], fun _ => by simp [limits]⟩

theorem closed_maxLow {low1 low2 : Bound ℤ} (h1 : low1.Closed) (h2 : low2.Closed) :
    (maxLow low1 low2).Closed := by
  cases low1 with
  | star => exact h2
  | excl n => exact absurd rfl (h1 n)
  | incl n =>
    cases low2 with
    | star => exact h1
    | excl m => exact absurd rfl (h2 m)
    | incl m => exact fun _ => by simp [maxLow]

theorem closed_minHigh {high1 high2 : Bound ℤ} (h1 : high1.Closed) (h2 : high2.Closed) :
    (minHigh high1 high2).Closed := by
  cases high1 with
  | star => exact h2
  | excl n => exact absurd rfl (h1 n)
  | incl n =>
    cases high2 with
    | star => exact h1
    | excl m => exact absurd rfl (h2 m)
    | incl m => exact fun _ => by simp [minHigh]

theorem IntegerForm.closed_limits (form : IntegerForm) :
    form.limits.1.Closed ∧ form.limits.2.Closed := by
  cases form with
  | simple type => exact type.closed_limits
  | and type1 type2 =>
    exact ⟨closed_maxLow type1.closed_limits.1 type2.closed_limits.1,
      closed_minHigh type1.closed_limits.2 type2.closed_limits.2⟩

/-! ## Meanings -/

theorem isInteger_integer {p : ℤ → Prop} {address : ℕ} {n : ℤ} :
    IsInteger p (.integer address n) ↔ p n := by
  constructor
  · rintro ⟨_, _, h, hp⟩
    cases h
    exact hp
  · exact fun hp => ⟨address, n, rfl, hp⟩

theorem IntegerType.has_iff (type : IntegerType) {address : ℕ} {n : ℤ} :
    type.specifier.Has up .standard (.integer address n) ↔
      Between type.limits.1 type.limits.2 n := by
  cases type with
  | integer => exact isInteger_integer.trans (and_self_iff (a := True)).symm
  | fixnum => exact isInteger_integer
  | bit => exact isInteger_integer
  | unsignedByte => exact isInteger_integer.trans (and_iff_left trivial).symm
  | unsignedBytes m => exact isInteger_integer.trans (and_congr_right' Int.le_sub_one_iff.symm)
  | signedBytes m => exact isInteger_integer.trans (and_congr_right' Int.le_sub_one_iff.symm)
  | mod m => exact isInteger_integer.trans (and_congr_right' Int.le_sub_one_iff.symm)
  | interval low high =>
    refine isInteger_integer.trans ?_
    exact and_congr (below_inclusiveLow low n).symm (above_inclusiveHigh high n).symm

theorem IntegerForm.has_iff (form : IntegerForm) {address : ℕ} {n : ℤ} :
    form.specifier.Has up .standard (.integer address n) ↔
      ¬ form.Apart ∧ Between form.limits.1 form.limits.2 n := by
  cases form with
  | simple type => exact type.has_iff.trans (and_iff_right id).symm
  | and type1 type2 =>
    have hboth : (IntegerForm.and type1 type2).specifier.Has up .standard (.integer address n) ↔
        Between type1.limits.1 type1.limits.2 n ∧ Between type2.limits.1 type2.limits.2 n :=
      and_congr type1.has_iff ((and_iff_left trivial).trans type2.has_iff)
    have hlimits : Between (IntegerForm.and type1 type2).limits.1
        (IntegerForm.and type1 type2).limits.2 n ↔
        Between type1.limits.1 type1.limits.2 n ∧ Between type2.limits.1 type2.limits.2 n := by
      refine (and_congr (below_maxLow type1.closed_limits.1 type2.closed_limits.1 n)
        (above_minHigh type1.closed_limits.2 type2.closed_limits.2 n)).trans ?_
      exact and_and_and_comm
    rw [hboth, hlimits]
    refine ⟨fun h => ⟨?_, h⟩, fun h => h.2⟩
    rintro (hgt | hgt)
    · exact not_above_of_gt hgt h.2.1 h.1.2
    · exact not_above_of_gt hgt h.1.1 h.2.2

theorem IntegerType.integer_of_has {type : IntegerType} {object : Object}
    (h : type.specifier.Has up .standard object) : ∃ address n, object = .integer address n := by
  cases type <;> exact h.imp fun _ h => h.imp fun _ h => h.1

theorem IntegerForm.integer_of_has {form : IntegerForm} {object : Object}
    (h : form.specifier.Has up .standard object) : ∃ address n, object = .integer address n := by
  cases form with
  | simple type => exact type.integer_of_has h
  | and type1 type2 => exact type1.integer_of_has h.1

/-! ## Canonical types -/

theorem canonical_specifier (type : IntegerType) :
    canonical type.specifier = integerType type.limits.1 type.limits.2 := by
  cases type <;> rfl

theorem intersection_integerType (low1 high1 low2 high2 : Bound ℤ) :
    intersection (integerType low1 high1) (integerType low2 high2) =
      some (if low2.gt high1 = true ∨ low1.gt high2 = true then .atom .nil
        else integerType (maxLow low1 low2) (minHigh high1 high2)) := by
  unfold intersection integerType
  dsimp only
  split_ifs <;> simp_all

theorem intersection_limits (a b : IntegerType) :
    intersection (integerType a.limits.1 a.limits.2) (integerType b.limits.1 b.limits.2) =
      some (IntegerForm.and a b).canonicalType := by
  rw [intersection_integerType, IntegerForm.canonicalType]
  congr 1

theorem canonical_form (form : IntegerForm) : canonical form.specifier = form.canonicalType := by
  cases form with
  | simple a => exact (canonical_specifier a).trans (if_neg id).symm
  | and a b =>
    have hmembers : canonicals (.ofList [a.specifier, b.specifier]) =
        .ofList [integerType a.limits.1 a.limits.2, integerType b.limits.1 b.limits.2] := by
      simp only [Specifiers.ofList, canonicals, canonical_specifier]
    rw [IntegerForm.specifier, canonical, hmembers, Specifiers.ofList, Specifiers.ofList,
      Specifiers.ofList, canonicalizeAndType, intersection_limits]
    rfl

end Xcl.Types
