import Mathlib.Computability.Language
import Mathlib.Tactic

/-!
# Orders of events

A program part is seen as the sequences of events that its runs can have: those of the runs that
complete, and those of the runs that end early, by an exit or an error.

* `Runs`: the two languages; `Runs α` is a monoid, whose multiplication is sequential composition;
* `event`, `mayEnd`, `choice`, `iterate`: one event, a step that can fail, a branch, and a loop.
-/

namespace Xcl.EventOrder

open Computability

@[ext]
structure Runs (α : Type) where
  completed : Language α
  ended : Language α

variable {α : Type}

namespace Runs

instance : One (Runs α) := ⟨⟨1, 0⟩⟩

/-- One part after another one, if the first completes. -/
instance : Mul (Runs α) :=
  ⟨fun r s => ⟨r.completed * s.completed, r.ended + r.completed * s.ended⟩⟩

@[simp] theorem one_completed : (1 : Runs α).completed = 1 := rfl

@[simp] theorem one_ended : (1 : Runs α).ended = 0 := rfl

@[simp] theorem mul_completed (r s : Runs α) : (r * s).completed = r.completed * s.completed := rfl

@[simp] theorem mul_ended (r s : Runs α) :
    (r * s).ended = r.ended + r.completed * s.ended := rfl

instance : Monoid (Runs α) where
  mul_assoc r s t := by
    ext1
    · exact mul_assoc _ _ _
    · simp only [mul_ended, mul_completed, mul_add, mul_assoc, add_assoc]
  one_mul r := by ext1 <;> simp
  mul_one r := by ext1 <;> simp

/-- One event, which can be the last one. -/
def event (a : α) : Runs α := ⟨{[a]}, {[a]}⟩

/-- A step without events that can fail. -/
def mayEnd : Runs α := ⟨1, 1⟩

/-- One of two parts. -/
def choice (r s : Runs α) : Runs α := ⟨r.completed + s.completed, r.ended + s.ended⟩

/-- A part, any number of times. -/
def iterate (r : Runs α) : Runs α := ⟨r.completed∗, r.completed∗ * r.ended⟩

@[simp] theorem mayEnd_mul_self : (mayEnd : Runs α) * mayEnd = mayEnd := by
  ext1
  · simp [mayEnd]
  · simp [mayEnd]

@[simp] theorem mayEnd_mul_mayEnd_mul (r : Runs α) : mayEnd * (mayEnd * r) = mayEnd * r := by
  rw [← mul_assoc, mayEnd_mul_self]

@[simp] theorem ite_mul_mayEnd (c : Prop) [Decidable c] :
    (if c then mayEnd else 1) * mayEnd = (mayEnd : Runs α) := by
  split_ifs <;> simp

@[simp] theorem choice_self (r : Runs α) : choice r r = r := by
  ext1
  · exact Language.add_self _
  · exact Language.add_self _

theorem choice_comm (r s : Runs α) : choice r s = choice s r := by
  ext1
  · exact add_comm _ _
  · exact add_comm _ _

@[simp] theorem mayEnd_mul_choice_mayEnd : (mayEnd : Runs α) * choice mayEnd 1 = mayEnd := by
  ext1
  · simp [mayEnd, choice]
  · simp [mayEnd, choice]

@[simp] theorem iterate_mayEnd : iterate (mayEnd : Runs α) = mayEnd := by
  ext1
  · simp [iterate, mayEnd]
  · simp [iterate, mayEnd]

theorem nil_mem_iterate (r : Runs α) : [] ∈ (iterate r).completed := Language.nil_mem_kstar _

/-! ## Straight-line parts -/

def Follows (r : Runs α) (word : List α) : Prop := r.completed = {word}

theorem follows_one : Follows (1 : Runs α) [] := rfl

theorem follows_mayEnd : Follows (mayEnd : Runs α) [] := rfl

theorem follows_event (a : α) : Follows (event a) [a] := rfl

theorem Follows.mul {r s : Runs α} {u v : List α} (hr : Follows r u) (hs : Follows s v) :
    Follows (r * s) (u ++ v) := by
  rw [Follows, mul_completed, hr, hs]
  ext word
  simp only [Language.mem_mul]
  constructor
  · rintro ⟨a, rfl, b, rfl, rfl⟩
    rfl
  · rintro rfl
    exact ⟨u, rfl, v, rfl, rfl⟩

theorem Follows.mem_iff {r : Runs α} {word : List α} (h : Follows r word) (u : List α) :
    u ∈ r.completed ↔ u = word := by
  rw [h]
  rfl

theorem Follows.unique {r : Runs α} {u v : List α} (hu : Follows r u) (hv : Follows r v) : u = v :=
  (hv.mem_iff u).mp ((hu.mem_iff u).mpr rfl)

end Runs

end Xcl.EventOrder
