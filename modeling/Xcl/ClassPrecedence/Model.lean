import Xcl.Lib.Ordered
import Mathlib.Data.List.Count
import Mathlib.Data.Finset.Basic

/-!
# Class precedence lists

* `SetOps`: the set operations on lists, which may list the elements of their results in any order,
  and `SetOps.source`, the ones of the library;
* `Hierarchy`: finitely many classes with their direct superclasses.

The loops have a bound on the number of their iterations.
-/

namespace Xcl.ClassPrecedence

open Relation

variable {α : Type} [DecidableEq α]

/-! ## Lists as sets -/

/-- `UNION`, `INTERSECTION` and `SET-DIFFERENCE`: the order of their results is not specified, and a
redundant element of an argument may stay or go. -/
structure SetOps (α : Type) [DecidableEq α] where
  union : List α → List α → List α
  intersection : List α → List α → List α
  setDifference : List α → List α → List α
  mem_union : ∀ l₁ l₂ x, x ∈ union l₁ l₂ ↔ x ∈ l₁ ∨ x ∈ l₂
  count_union : ∀ l₁ l₂ x, (union l₁ l₂).count x ≤ max (l₁.count x) (l₂.count x)
  mem_intersection : ∀ l₁ l₂ x, x ∈ intersection l₁ l₂ ↔ x ∈ l₁ ∧ x ∈ l₂
  mem_setDifference : ∀ l₁ l₂ x, x ∈ setDifference l₁ l₂ ↔ x ∈ l₁ ∧ x ∉ l₂

/-- The elements are pushed onto the second list one by one. -/
def union (l₁ l₂ : List α) : List α :=
  l₁.foldl (fun result x => if x ∈ l₂ then result else x :: result) l₂

def intersection (l₁ l₂ : List α) : List α :=
  l₁.foldl (fun result x => if x ∈ l₂ then x :: result else result) []

def setDifference (l₁ l₂ : List α) : List α :=
  l₁.foldl (fun result x => if x ∈ l₂ then result else x :: result) []

omit [DecidableEq α] in
theorem foldl_push (l₁ result : List α) (keep : α → Prop) [DecidablePred keep] :
    l₁.foldl (fun result x => if keep x then result else x :: result) result =
      (l₁.filter fun x => ¬keep x).reverse ++ result := by
  induction l₁ generalizing result with
  | nil => rfl
  | cons x l₁ ih =>
    rw [List.foldl_cons, ih]
    by_cases hx : keep x <;> simp [hx]

theorem union_eq (l₁ l₂ : List α) : union l₁ l₂ = (l₁.filter fun x => x ∉ l₂).reverse ++ l₂ :=
  foldl_push l₁ l₂ (· ∈ l₂)

theorem setDifference_eq (l₁ l₂ : List α) :
    setDifference l₁ l₂ = (l₁.filter fun x => x ∉ l₂).reverse := by
  have h := foldl_push l₁ [] (· ∈ l₂)
  rw [List.append_nil] at h
  exact h

theorem intersection_eq (l₁ l₂ : List α) :
    intersection l₁ l₂ = (l₁.filter fun x => x ∈ l₂).reverse := by
  have h := foldl_push l₁ [] (· ∉ l₂)
  rw [List.append_nil] at h
  simpa [intersection] using h

/-- The operations of the library. -/
def SetOps.source : SetOps α where
  union := ClassPrecedence.union
  intersection := ClassPrecedence.intersection
  setDifference := ClassPrecedence.setDifference
  mem_union l₁ l₂ x := by
    rw [union_eq]
    by_cases hx : x ∈ l₂ <;> simp [hx]
  count_union l₁ l₂ x := by
    rw [union_eq, List.count_append, List.count_reverse]
    by_cases hx : x ∈ l₂
    · have hzero : (l₁.filter fun x => x ∉ l₂).count x = 0 := List.count_eq_zero.2 (by simp [hx])
      omega
    · have hzero : l₂.count x = 0 := List.count_eq_zero.2 hx
      rw [List.count_filter (by simpa using hx)]
      omega
  mem_intersection l₁ l₂ x := by
    rw [intersection_eq]
    simp
  mem_setDifference l₁ l₂ x := by
    rw [setDifference_eq]
    simp

/-! ## Classes -/

structure Hierarchy (α : Type) where
  classes : Finset α
  directSuperclasses : α → List α
  closed : ∀ c ∈ classes, ∀ d ∈ directSuperclasses c, d ∈ classes

/-! ## The code -/

section Code

variable (ops : SetOps α) (directSuperclasses : α → List α)

def allSuperclassesLoop : ℕ → List α → List α → Option (List α)
  | 0, _, _ => none
  | fuel + 1, seen, superclasses =>
    match ops.setDifference superclasses seen with
    | [] => some superclasses
    | c :: _ =>
      allSuperclassesLoop fuel (c :: seen) (ops.union (directSuperclasses c) superclasses)

def collectSuperclasses (fuel : ℕ) (c : α) : Option (List α) :=
  allSuperclassesLoop ops directSuperclasses fuel [] [c]

/-- `C` before its first direct superclass, and each of these before the next one. -/
def localPrecedenceOrdering (c : α) : List (α × α) :=
  (c :: (directSuperclasses c).dropLast).zip (directSuperclasses c)

inductive Failure
  /-- "Inconsistent precedence graph." -/
  | inconsistent
  /-- The tie-breaker has chosen `NIL`, and then asks for its direct superclasses. -/
  | notClass
  deriving DecidableEq

def topologicalSort (tieBreaker : List α → List α → Option α) :
    ℕ → List (α × α) → List α → List α → Option (Except Failure (List α))
  | 0, _, _, _ => none
  | fuel + 1, constraints, elements, result =>
    match elements.filter fun c => c ∉ constraints.map Prod.snd with
    | [] => some (if elements = [] then .ok result else .error .inconsistent)
    | x :: rest =>
      match if rest = [] then some x else tieBreaker (x :: rest) result with
      | none => some (.error .notClass)
      | some choice =>
        topologicalSort tieBreaker fuel
          (constraints.filter fun pair => pair.1 ≠ choice ∧ pair.2 ≠ choice)
          (elements.filter (· ≠ choice)) (result ++ [choice])

/-- From right to left, the first element that is a direct superclass. -/
def stdTieBreakerRule (minimal cpl : List α) : Option α :=
  cpl.reverse.findSome? fun c => (ops.intersection minimal (directSuperclasses c)).head?

/-- The constraints are new lists, so that `REMOVE-DUPLICATES` finds no two that are `EQL`. -/
def stdComputeClassPrecedenceList (fuel : ℕ) (c : α) : Option (Except Failure (List α)) :=
  match collectSuperclasses ops directSuperclasses fuel c with
  | none => none
  | some classes =>
    topologicalSort (stdTieBreakerRule ops directSuperclasses) fuel
      (classes.flatMap (localPrecedenceOrdering directSuperclasses)) classes []

end Code

/-! ## What a class precedence list is -/

section Spec

variable (directSuperclasses : α → List α) (c : α)

omit [DecidableEq α]

/-- `d` is `c` or a superclass of it. -/
def Superclass (d : α) : Prop := ReflTransGen (fun x y => y ∈ directSuperclasses x) c d

/-- The local precedence order of `c` or a superclass has `x` right before `y`. -/
def Precedes (x y : α) : Prop :=
  ∃ d, Superclass directSuperclasses c d ∧ (x, y) ∈ localPrecedenceOrdering directSuperclasses d

/-- The local precedence orders have a cycle. -/
def Cyclic : Prop := ∃ x, TransGen (Precedes directSuperclasses c) x x

/-- The classes that may come next after the list. -/
def Minimal (l : List α) (x : α) : Prop :=
  Superclass directSuperclasses c x ∧ x ∉ l ∧ ∀ y, Precedes directSuperclasses c y x → y ∈ l

/-- `x` comes next: it is minimal, and no minimal class has a direct subclass in the list further
to the right than `x` has. -/
def ComesNext (l : List α) (x : α) : Prop :=
  Minimal directSuperclasses c l x ∧
    (l = [] ∨ ∃ before d after, l = before ++ d :: after ∧ x ∈ directSuperclasses d ∧
      ∀ e ∈ after, ∀ y ∈ directSuperclasses e, ¬Minimal directSuperclasses c l y)

/-- The class precedence list of `c`. -/
structure IsPrecedenceList (l : List α) : Prop where
  head : l.head? = some c
  nodup : l.Nodup
  mem : ∀ d, d ∈ l ↔ Superclass directSuperclasses c d
  respects : Ordered.Respects (Precedes directSuperclasses c) l
  next : ∀ before x after, l = before ++ x :: after → ComesNext directSuperclasses c before x

end Spec

end Xcl.ClassPrecedence
