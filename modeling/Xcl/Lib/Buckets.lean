import Mathlib.Data.List.Perm.Basic
import Mathlib.Data.List.Pairwise
import Mathlib.Tactic

/-!
# Lists of buckets

A list of lists changes in one place. `exists_flatten_perm` splits the elements of all lists into
those of one list and the rest, and the split holds for every list put in that place.
-/

namespace Xcl.Buckets

variable {α : Type*} {G : List (List α)} {g : List α} {i : ℕ}

/-- The elements outside list `i` do not change when list `i` does. -/
theorem exists_flatten_perm (h : G[i]? = some g) :
    ∃ rest, G.flatten.Perm (g ++ rest) ∧ (∀ g', (G.set i g').flatten.Perm (g' ++ rest)) ∧
      ∀ j g', j ≠ i → G[j]? = some g' → ∀ x ∈ g', x ∈ rest := by
  induction G generalizing i with
  | nil => simp at h
  | cons g₀ G ih =>
    cases i with
    | zero =>
      obtain rfl : g₀ = g := by simpa using h
      refine ⟨G.flatten, by simp, by simp, fun j g' hj hg x hx => ?_⟩
      obtain ⟨j, rfl⟩ : ∃ m, j = m + 1 := ⟨j - 1, by omega⟩
      exact List.mem_flatten.mpr ⟨g', List.mem_of_getElem? (by simpa using hg), hx⟩
    | succ i =>
      obtain ⟨rest, h₁, h₂, h₃⟩ := ih (by simpa using h)
      have swap : ∀ l : List α, (g₀ ++ (l ++ rest)).Perm (l ++ (g₀ ++ rest)) := fun l => by
        rw [← List.append_assoc, ← List.append_assoc]
        exact List.perm_append_comm.append_right rest
      refine ⟨g₀ ++ rest, ?_, fun g' => ?_, fun j g' hj hg x hx => ?_⟩
      · rw [List.flatten_cons]
        exact (h₁.append_left g₀).trans (swap g)
      · rw [List.set_cons_succ, List.flatten_cons]
        exact ((h₂ g').append_left g₀).trans (swap g')
      · cases j with
        | zero => simp only [List.getElem?_cons_zero, Option.some.injEq] at hg; simp [hg, hx]
        | succ j =>
          exact List.mem_append_right _ (h₃ j g' (by omega) (by simpa using hg) x hx)

end Xcl.Buckets
