import Mathlib.Tactic

/-!
# Intervals of numeric types

* `Bound`: a bound of a numeric type specifier, `*`, `n` or `(n)`;
* `Comparison`: the comparisons of numbers that are used.
-/

namespace Xcl.Types

/-- The numeric operations that the functions on intervals use. -/
class Comparison (α : Type) where
  lt : α → α → Bool
  le : α → α → Bool
  gt : α → α → Bool
  ge : α → α → Bool
  integerp : α → Bool
  add1 : α → α
  sub1 : α → α

open Comparison

/-- A bound: the symbol `*`, an inclusive bound `n`, or an exclusive bound `(n)`. -/
inductive Bound (α : Type)
  | star
  | incl (n : α)
  | excl (n : α)
  deriving DecidableEq, Repr

variable {α : Type} [Comparison α]

/-- The two bounds of an interval, which may be left out. -/
def bounds : List (Bound α) → Bound α × Bound α
  | [] => (.star, .star)
  | [low] => (low, .star)
  | low :: high :: _ => (low, high)

def normalizeLow : Bound α → Bound α
  | .excl n => if integerp n then .incl (add1 n) else .excl n
  | bound => bound

def normalizeHigh : Bound α → Bound α
  | .excl n => if integerp n then .incl (sub1 n) else .excl n
  | bound => bound

/-- The comparison of the lower bounds in `sub-interval-p`. -/
def lowOk : Bound α → Bound α → Bool
  | .star, .star => true
  | .star, _ => false
  | _, .star => true
  | .excl low1, .excl low2 => !lt low1 low2
  | .excl low1, .incl low2 => !lt low1 low2
  | .incl low1, .excl low2 => !le low1 low2
  | .incl low1, .incl low2 => !lt low1 low2

/-- The comparison of the upper bounds in `sub-interval-p`. -/
def highOk : Bound α → Bound α → Bool
  | .star, .star => true
  | .star, _ => false
  | _, .star => true
  | .excl high1, .excl high2 => !gt high1 high2
  | .excl high1, .incl high2 => !gt high1 high2
  | .incl high1, .excl high2 => !ge high1 high2
  | .incl high1, .incl high2 => !gt high1 high2

def subIntervalP (i1 i2 : List (Bound α)) : Bool :=
  let (low1, high1) := bounds i1
  let (low2, high2) := bounds i2
  lowOk (normalizeLow low1) (normalizeLow low2) &&
    highOk (normalizeHigh high1) (normalizeHigh high2)

def inIntervalP (x : α) : List (Bound α) → Bool
  | [] => true
  | low :: rest =>
    let high : Bound α := match rest with
      | [] => .star
      | high :: _ => high
    (match low with
      | .star => true
      | .excl low => !le x low
      | .incl low => !lt x low) &&
    (match high with
      | .star => true
      | .excl high => !ge x high
      | .incl high => !gt x high)

theorem subIntervalP_nil (i1 : List (Bound α)) : subIntervalP i1 [] = true := by
  have hlow : ∀ low : Bound α, lowOk low .star = true := fun low => by cases low <;> rfl
  have hhigh : ∀ high : Bound α, highOk high .star = true := fun high => by cases high <;> rfl
  exact Bool.and_eq_true_iff.mpr ⟨hlow _, hhigh _⟩

instance : Comparison ℤ where
  lt a b := a < b
  le a b := a ≤ b
  gt a b := a > b
  ge a b := a ≥ b
  integerp _ := true
  add1 a := a + 1
  sub1 a := a - 1

instance : Comparison ℚ where
  lt a b := a < b
  le a b := a ≤ b
  gt a b := a > b
  ge a b := a ≥ b
  integerp q := q.den = 1
  add1 a := a + 1
  sub1 a := a - 1

/-- A bound of an interval of integers, `none` for `*`. -/
def Bound.ofLimit : Option ℤ → Bound ℤ
  | none => .star
  | some n => .incl n

/-- **The answer for integers** with inclusive bounds. -/
theorem subIntervalP_int {low1 high1 low2 high2 : Option ℤ} :
    subIntervalP [.ofLimit low1, .ofLimit high1] [.ofLimit low2, .ofLimit high2] = true ↔
      (∀ b ∈ low2, ∃ a ∈ low1, b ≤ a) ∧ ∀ b ∈ high2, ∃ a ∈ high1, a ≤ b := by
  cases low1 <;> cases high1 <;> cases low2 <;> cases high2 <;>
    simp [subIntervalP, bounds, Bound.ofLimit, normalizeLow, normalizeHigh, lowOk, highOk, lt, gt]

end Xcl.Types
