import Mathlib.Algebra.BigOperators.Group.List.Basic
import Mathlib.Tactic

/-!
# Numbers in mixed radix

A list of bases and a digit below each of them; the first digit counts most.

* **`value_injective`**.
-/

namespace Xcl.MixedRadix

abbrev Below (digits bases : List ℕ) : Prop := List.Forall₂ (· < ·) digits bases

def value : List ℕ → List ℕ → ℕ
  | _ :: bases, digit :: digits => digit * bases.prod + value bases digits
  | _, _ => 0

def digits : List ℕ → ℕ → List ℕ
  | [], _ => []
  | _ :: bases, n => n / bases.prod :: digits bases (n % bases.prod)

variable {bases ds es : List ℕ} {n : ℕ}

theorem prod_pos (h : Below ds bases) : 0 < bases.prod := by
  induction h with
  | nil => exact Nat.one_pos
  | cons hlt _ ih =>
    rw [List.prod_cons]
    exact Nat.mul_pos (Nat.zero_lt_of_lt hlt) ih

theorem value_lt (h : Below ds bases) : value bases ds < bases.prod := by
  induction h with
  | nil => exact Nat.one_pos
  | @cons digit base ds bases hlt _ ih =>
    rw [value, List.prod_cons]
    calc digit * bases.prod + value bases ds
        < digit * bases.prod + bases.prod := Nat.add_lt_add_left ih _
      _ = (digit + 1) * bases.prod := (Nat.succ_mul digit bases.prod).symm
      _ ≤ base * bases.prod := Nat.mul_le_mul_right _ hlt

theorem below_digits (h : n < bases.prod) : Below (digits bases n) bases := by
  induction bases generalizing n with
  | nil => exact List.Forall₂.nil
  | cons base bases ih =>
    rw [List.prod_cons] at h
    have hpos : 0 < bases.prod := Nat.pos_of_mul_pos_left (Nat.zero_lt_of_lt h)
    refine List.Forall₂.cons ?_ (ih (Nat.mod_lt n hpos))
    exact Nat.div_lt_of_lt_mul (by rwa [Nat.mul_comm])

@[simp] theorem length_digits : (digits bases n).length = bases.length := by
  induction bases generalizing n with
  | nil => rfl
  | cons base bases ih => rw [digits, List.length_cons, List.length_cons, ih]

theorem value_digits (h : n < bases.prod) : value bases (digits bases n) = n := by
  induction bases generalizing n with
  | nil => exact (Nat.lt_one_iff.mp h).symm
  | cons base bases ih =>
    rw [List.prod_cons] at h
    have hpos : 0 < bases.prod := Nat.pos_of_mul_pos_left (Nat.zero_lt_of_lt h)
    rw [digits, value, ih (Nat.mod_lt n hpos)]
    exact Nat.div_add_mod' n bases.prod

theorem digits_value (h : Below ds bases) : digits bases (value bases ds) = ds := by
  induction h with
  | nil => rfl
  | @cons digit base ds bases hlt hrest ih =>
    have hvalue := value_lt hrest
    have hpos := prod_pos hrest
    rw [value, digits, Nat.add_comm, Nat.add_mul_div_right _ _ hpos, Nat.div_eq_of_lt hvalue,
      Nat.zero_add, Nat.add_mul_mod_self_right, Nat.mod_eq_of_lt hvalue, ih]

/-- **A number has one numeral.** -/
theorem value_injective (hds : Below ds bases) (hes : Below es bases)
    (h : value bases ds = value bases es) : ds = es := by
  rw [← digits_value hds, ← digits_value hes, h]

end Xcl.MixedRadix
