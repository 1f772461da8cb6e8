import Mathlib.Logic.Relation
import Mathlib.Data.List.Chain
import Mathlib.Order.WellFoundedSet
import Mathlib.Tactic

/-!
# Lists that respect constraints

A relation says which elements have to stand before which. A list respects it when all the
predecessors of an element stand before the element.

* `Respects`: with `respects_concat`, how such a list grows;
* **`exists_minimal`**: without a cycle, a finite set has an element without predecessors in it.
-/

namespace Xcl.Ordered

open Relation

variable {α : Type*} {R : α → α → Prop} {l : List α} {x y : α}

/-- The predecessors of every element stand before it. -/
def Respects (R : α → α → Prop) (l : List α) : Prop :=
  ∀ before x after, l = before ++ x :: after → ∀ y, R y x → y ∈ before

theorem respects_nil : Respects R [] := by
  intro before x after h
  simp at h

theorem respects_concat : Respects R (l ++ [x]) ↔ Respects R l ∧ ∀ y, R y x → y ∈ l := by
  constructor
  · intro h
    constructor
    · intro before z after heq y hy
      exact h before z (after ++ [x]) (by simp [heq]) y hy
    · exact h l x [] rfl
  · rintro ⟨hl, hx⟩ before z after heq y hy
    rcases List.eq_nil_or_concat after with rfl | ⟨after', w, rfl⟩
    · obtain ⟨rfl, hz⟩ := List.append_inj' (heq : l ++ [x] = before ++ [z]) rfl
      obtain rfl : x = z := by simpa using hz
      exact hx y hy
    · have heq' : l ++ [x] = (before ++ z :: after') ++ [w] := by simp [heq]
      obtain ⟨hleft, -⟩ := List.append_inj' heq' rfl
      exact hl before z after' hleft y hy

theorem Respects.of_append {l' : List α} (h : Respects R (l ++ l')) : Respects R l := by
  intro before x after heq y hy
  exact h before x (after ++ l') (by simp [heq]) y hy

theorem Respects.mem_of_transGen (h : Respects R l) (hx : x ∈ l) (hyx : TransGen R y x) :
    y ∈ l := by
  induction hyx with
  | single hrel =>
    obtain ⟨before, after, rfl⟩ := List.append_of_mem hx
    exact List.mem_append_left _ (h before _ after rfl _ hrel)
  | tail _ hrel ih =>
    obtain ⟨before, after, rfl⟩ := List.append_of_mem hx
    exact ih (List.mem_append_left _ (h before _ after rfl _ hrel))

theorem Respects.mem_before {before after : List α} (h : Respects R (before ++ x :: after))
    (hyx : TransGen R y x) : y ∈ before := by
  rcases TransGen.tail'_iff.1 hyx with ⟨z, hyz, hzx⟩
  have hz := h before x after rfl z hzx
  rcases (reflTransGen_iff_eq_or_transGen.1 hyz) with rfl | hyz
  · exact hz
  · exact h.of_append.mem_of_transGen hz hyz

theorem Respects.not_cycle (h : Respects R l) (hnodup : l.Nodup) (hx : x ∈ l) :
    ¬TransGen R x x := by
  intro hcycle
  obtain ⟨before, after, rfl⟩ := List.append_of_mem hx
  have hmem := h.mem_before hcycle
  rw [List.nodup_append] at hnodup
  exact hnodup.2.2 x hmem x (by simp) rfl

/-- **A finite set has a minimal element** when there is no cycle. -/
theorem exists_minimal {s : Set α} (hfinite : s.Finite) (hne : s.Nonempty)
    (hacyclic : ∀ x, ¬TransGen R x x) : ∃ x ∈ s, ∀ y ∈ s, ¬R y x := by
  have : IsStrictOrder α (TransGen R) :=
    { irrefl := hacyclic, trans := fun _ _ _ => TransGen.trans }
  have hwf := hfinite.wellFoundedOn (r := TransGen R)
  obtain ⟨⟨x, hx⟩, -, hmin⟩ := hwf.has_min Set.univ ⟨⟨hne.some, hne.some_mem⟩, trivial⟩
  exact ⟨x, hx, fun y hy hrel => hmin ⟨y, hy⟩ trivial (TransGen.single hrel)⟩

/-- In a chain of constraints every element precedes the later ones. -/
theorem transGen_of_isChain (h : List.IsChain R l) : l.Pairwise (TransGen R) := by
  have hchain : List.IsChain (TransGen R) l := h.imp fun _ _ => TransGen.single
  exact List.isChain_iff_pairwise.1 hchain

end Xcl.Ordered
