import Mathlib.Data.List.GetD
import Mathlib.Data.List.Perm.Basic
import Mathlib.Data.List.Range
import Mathlib.GroupTheory.Perm.Basic
import Mathlib.Tactic

/-!
# Sorting

`sort` puts the elements of a list in a vector and back; a vector is given by its elements.

* **`sort_perm`**, **`sort_sorted`**: `sort` returns the elements in order.
-/

namespace Xcl.MethodCombination

/-! ## The functions -/

section Functions

variable {α : Type} (predicate : α → α → Bool)

/-- `rotatef` of two elements. -/
def rotatef (v : ℕ → α) (i j : ℕ) : ℕ → α := v ∘ Equiv.swap i j

/-- The loop of `partition` that increments `l`, in at most `r + 1 - l` rounds. -/
def scanUp (pivot : α) (v : ℕ → α) (r : ℕ) : ℕ → ℕ → ℕ
  | 0, l => l
  | n + 1, l => if l ≤ r ∧ predicate (v l) pivot then scanUp pivot v r n (l + 1) else l

/-- The loop of `partition` that decrements `r`, in at most `r - l` rounds. -/
def scanDown (pivot : α) (v : ℕ → α) (l : ℕ) : ℕ → ℕ → ℕ
  | 0, r => r
  | n + 1, r => if l ≥ r ∨ predicate (v r) pivot then r else scanDown pivot v l n (r - 1)

/-- The outer loop of `partition`, with a bound on the number of rounds. -/
def partitionLoop (pivot : α) : ℕ → (ℕ → α) → ℕ → ℕ → (ℕ → α) × ℕ
  | 0, v, l, _ => (v, l)
  | n + 1, v, l, r =>
    let l := scanUp predicate pivot v r (r + 1 - l) l
    let r := scanDown predicate pivot v l (r - l) r
    if l ≥ r then (v, l) else partitionLoop pivot n (rotatef v l r) l r

def partition (v : ℕ → α) (left right : ℕ) : (ℕ → α) × ℕ :=
  let (v, l) := partitionLoop predicate (v right) (right - left + 1) v left (right - 1)
  (rotatef v l right, l)

/-- `quicksort`, with a bound on the depth. The index `(1- v)` is cut off at zero, where nothing is
left to sort, either. -/
def quicksort : ℕ → (ℕ → α) → ℕ → ℕ → ℕ → α
  | 0, v, _, _ => v
  | n + 1, v, left, right =>
    if right ≤ left then v
    else
      let (v, m) := partition predicate v left right
      quicksort n (quicksort n v left (m - 1)) (m + 1) right

def quicksortVector (v : ℕ → α) (length : ℕ) : ℕ → α :=
  quicksort predicate length v 0 (length - 1)

/-- `sort` of a list. -/
def sort [Inhabited α] (sequence : List α) : List α :=
  (List.range sequence.length).map
    (quicksortVector predicate (fun i => sequence.getD i default) sequence.length)

end Functions

/-! ## Rearrangements -/

/-- Only indices from `left` to `right` are moved, and none if there is only one. -/
def Moves (σ : Equiv.Perm ℕ) (left right : ℕ) : Prop :=
  ∀ i, σ i ≠ i → left ≤ i ∧ i ≤ right ∧ left < right

section Moves

variable {σ τ : Equiv.Perm ℕ} {left right i : ℕ}

theorem moves_one : Moves 1 left right := fun _ h => absurd rfl h

theorem moves_swap {l r : ℕ} (hl : left ≤ l) (hlr : l ≤ r) (hr : r ≤ right) :
    Moves (Equiv.swap l r) left right := by
  intro i hi
  obtain ⟨hne, h⟩ := Equiv.swap_apply_ne_self_iff.mp hi
  omega

theorem Moves.mono {left' right' : ℕ} (h : Moves σ left' right') (hl : left ≤ left')
    (hr : right' ≤ right) : Moves σ left right := by
  intro i hi
  have := h i hi
  omega

theorem Moves.mul (hσ : Moves σ left right) (hτ : Moves τ left right) :
    Moves (σ * τ) left right := by
  intro i hi
  by_cases hτi : τ i = i
  · rw [Equiv.Perm.mul_apply, hτi] at hi
    exact hσ i hi
  · exact hτ i hτi

theorem Moves.fixes (h : Moves σ left right) (hi : i < left ∨ right < i ∨ right ≤ left) :
    σ i = i := by
  by_contra hne
  have := h i hne
  omega

theorem Moves.mem (h : Moves σ left right) (hl : left ≤ i) (hr : i ≤ right) :
    left ≤ σ i ∧ σ i ≤ right := by
  by_cases hσ : σ i = i
  · rw [hσ]
    exact ⟨hl, hr⟩
  · have hσσ : σ (σ i) ≠ σ i := fun heq => hσ (σ.injective heq)
    have := h (σ i) hσσ
    omega

theorem perm_map_range {n : ℕ} (h : ∀ i < n, σ i < n) :
    ((List.range n).map σ).Perm (List.range n) := by
  refine List.Subperm.perm_of_length_le ?_ (by simp)
  refine List.subperm_of_subset (List.nodup_range.map σ.injective) fun i hi => ?_
  obtain ⟨j, hj, rfl⟩ := List.mem_map.mp hi
  exact List.mem_range.mpr (h j (List.mem_range.mp hj))

end Moves

/-! ## The loops -/

section Loops

variable {α : Type} (predicate : α → α → Bool) (pivot : α) (v : ℕ → α) {n l r : ℕ}

theorem scanUp_spec (hn : r + 1 - l ≤ n) (hl : l ≤ r + 1) :
    l ≤ scanUp predicate pivot v r n l ∧ scanUp predicate pivot v r n l ≤ r + 1 ∧
      (∀ i, l ≤ i → i < scanUp predicate pivot v r n l → predicate (v i) pivot = true) ∧
      (scanUp predicate pivot v r n l ≤ r →
        predicate (v (scanUp predicate pivot v r n l)) pivot = false) := by
  induction n generalizing l with
  | zero =>
    rw [scanUp]
    exact ⟨le_rfl, hl, by omega, by omega⟩
  | succ n ih =>
    rw [scanUp]
    split_ifs with h
    · obtain ⟨hle, hle', hall, hstop⟩ := ih (l := l + 1) (by omega) (by omega)
      refine ⟨by omega, hle', fun i hi hlt => ?_, hstop⟩
      rcases Nat.eq_or_lt_of_le hi with rfl | hi
      · exact h.2
      · exact hall i hi hlt
    · refine ⟨le_rfl, hl, by omega, fun hlr => ?_⟩
      by_contra hp
      exact h ⟨hlr, by simpa using hp⟩

theorem scanDown_spec (hn : r - l ≤ n) :
    scanDown predicate pivot v l n r ≤ r ∧ (l ≤ r → l ≤ scanDown predicate pivot v l n r) ∧
      (∀ i, scanDown predicate pivot v l n r < i → i ≤ r → predicate (v i) pivot = false) ∧
      (scanDown predicate pivot v l n r ≤ l ∨
        predicate (v (scanDown predicate pivot v l n r)) pivot = true) := by
  induction n generalizing r with
  | zero =>
    rw [scanDown]
    exact ⟨le_rfl, id, by omega, .inl (by omega)⟩
  | succ n ih =>
    rw [scanDown]
    split_ifs with h
    · exact ⟨le_rfl, id, by omega, h⟩
    · push Not at h
      obtain ⟨hle, hle', hall, hstop⟩ := ih (r := r - 1) (by omega)
      refine ⟨by omega, fun _ => hle' (by omega), fun i hi hir => ?_, hstop⟩
      rcases Nat.eq_or_lt_of_le hir with rfl | hir
      · simpa using h.2
      · exact hall i hi (by omega)

/-- **The outer loop** puts what is before the pivot in front of the rest. After an exchange the
element at `l` is before the pivot, so that every further round moves `l`. -/
theorem partitionLoop_spec (hn : r - l < n ∨ l < r ∧ r - l ≤ n ∧ predicate (v l) pivot = true)
    (hlr : l ≤ r + 1) :
    ∃ (σ : Equiv.Perm ℕ) (m : ℕ), partitionLoop predicate pivot n v l r = (v ∘ σ, m) ∧
      Moves σ l r ∧ l ≤ m ∧ m ≤ r + 1 ∧
      (∀ i, l ≤ i → i < m → predicate (v (σ i)) pivot = true) ∧
      ∀ i, m ≤ i → i ≤ r → predicate (v (σ i)) pivot = false := by
  induction n generalizing v l r with
  | zero => omega
  | succ n ih =>
    obtain ⟨hup, hup', hbefore, hstop⟩ := scanUp_spec predicate pivot v le_rfl hlr
    have hmoved : r - l < n + 1 ∨ l < scanUp predicate pivot v r (r + 1 - l) l := by
      rcases hn with hn | ⟨hlt, -, hp⟩
      · exact .inl hn
      · refine .inr (lt_of_le_of_ne hup fun heq => ?_)
        rw [← heq] at hstop
        rw [hstop hlt.le] at hp
        cases hp
    rw [partitionLoop]
    generalize scanUp predicate pivot v r (r + 1 - l) l = l' at *
    obtain ⟨hdown, hdown', hafter, hstop'⟩ := scanDown_spec predicate pivot v (le_refl (r - l'))
    generalize scanDown predicate pivot v l' (r - l') r = r' at *
    split_ifs with hdone
    · refine ⟨1, l', rfl, moves_one, hup, hup', fun i hi hlt => hbefore i hi hlt,
        fun i hi hir => ?_⟩
      rcases Nat.lt_or_ge r' i with hlt | hle
      · exact hafter i hlt hir
      · obtain rfl : l' = i := by omega
        exact hstop hir
    · have hp : predicate (v r') pivot = true := hstop'.resolve_left hdone
      have hswap : predicate (rotatef v l' r' l') pivot = true := by
        rwa [rotatef, Function.comp_apply, Equiv.swap_apply_left]
      obtain ⟨σ, m, hloop, hmoves, hlm, hmr, hbefore', hafter'⟩ :=
        ih (v := rotatef v l' r') (l := l') (r := r') (.inr ⟨by omega, by omega, hswap⟩) (by omega)
      have hfix : ∀ i, i < l' ∨ r' < i → (Equiv.swap l' r' * σ) i = i := by
        intro i hi
        rw [Equiv.Perm.mul_apply, hmoves.fixes (by omega)]
        exact Equiv.swap_apply_of_ne_of_ne (by omega) (by omega)
      have hmoves' : Moves (Equiv.swap l' r' * σ) l r :=
        ((moves_swap le_rfl (by omega) le_rfl).mul hmoves).mono hup hdown
      refine ⟨Equiv.swap l' r' * σ, m, hloop, hmoves', by omega, by omega, fun i hi hlt => ?_,
        fun i hi hir => ?_⟩
      · by_cases hil : i < l'
        · rw [hfix i (.inl hil)]
          exact hbefore i hi hil
        · exact hbefore' i (by omega) hlt
      · by_cases hir' : r' < i
        · rw [hfix i (.inr hir')]
          exact hafter i hir' hir
        · exact hafter' i hi (by omega)

/-- The pivot stands between the elements that are before it and the others. -/
theorem partition_spec (h : l < r) :
    ∃ (σ : Equiv.Perm ℕ) (m : ℕ), partition predicate v l r = (v ∘ σ, m) ∧ Moves σ l r ∧
      l ≤ m ∧ m ≤ r ∧ (∀ i, l ≤ i → i < m → predicate (v (σ i)) (v (σ m)) = true) ∧
      ∀ i, m < i → i ≤ r → predicate (v (σ i)) (v (σ m)) = false := by
  obtain ⟨σ, m, hloop, hmoves, hlm, hmr, hbefore, hafter⟩ :=
    partitionLoop_spec predicate (v r) v (n := r - l + 1) (l := l) (r := r - 1)
      (.inl (by omega)) (by omega)
  have hpivot : σ r = r := hmoves.fixes (by omega)
  have hat : (σ * Equiv.swap m r) m = r := by
    rw [Equiv.Perm.mul_apply, Equiv.swap_apply_left, hpivot]
  have hmoves' : Moves (σ * Equiv.swap m r) l r :=
    (hmoves.mono le_rfl (by omega)).mul (moves_swap hlm (by omega) le_rfl)
  refine ⟨σ * Equiv.swap m r, m, ?_, hmoves', hlm, by omega, fun i hi hlt => ?_,
    fun i hi hir => ?_⟩
  · rw [partition, hloop]
    rfl
  · rw [hat, Equiv.Perm.mul_apply, Equiv.swap_apply_of_ne_of_ne (by omega) (by omega)]
    exact hbefore i hi hlt
  · rw [hat, Equiv.Perm.mul_apply]
    by_cases hr : i = r
    · rw [hr, Equiv.swap_apply_right]
      exact hafter m le_rfl (by omega)
    · rw [Equiv.swap_apply_of_ne_of_ne (by omega) hr]
      exact hafter i hi.le (by omega)

end Loops

/-! ## Sorted elements -/

section Sorted

variable {α β : Type} [LinearOrder β] {predicate : α → α → Bool} {f : α → β}

structure IsOrder (predicate : α → α → Bool) (P : α → Prop) : Prop where
  irrefl : ∀ a, P a → predicate a a = false
  trans : ∀ a b c, P a → P b → P c → predicate a b = true → predicate b c = true →
    predicate a c = true

/-- **`quicksort`** moves the elements, whatever the predicate is, and where it is an order no
element is before an earlier one. -/
theorem quicksort_ordered (predicate : α → α → Bool) {n : ℕ} {v : ℕ → α} {left right : ℕ}
    (hn : right - left < n) :
    ∃ σ : Equiv.Perm ℕ, quicksort predicate n v left right = v ∘ σ ∧ Moves σ left right ∧
      ∀ P, IsOrder predicate P → (∀ i, left ≤ i → i ≤ right → P (v i)) →
        ∀ i j, left ≤ i → i ≤ j → j ≤ right → predicate (v (σ j)) (v (σ i)) = false := by
  induction n generalizing v left right with
  | zero => omega
  | succ n ih =>
    rw [quicksort]
    split_ifs with hle
    · refine ⟨1, rfl, moves_one, fun P hP hv i j hi hij hj => ?_⟩
      obtain rfl : i = j := by omega
      exact hP.irrefl _ (hv i hi hj)
    obtain ⟨σ, m, hpartition, hmoves, hlm, hmr, hbefore, hafter⟩ :=
      partition_spec predicate v (not_le.mp hle)
    obtain ⟨σ₁, hquicksort₁, hmoves₁, hsorted₁⟩ :=
      @ih (v ∘ σ) left (m - 1) (show m - 1 - left < n by omega)
    have hfix₁ : ∀ i, m ≤ i → σ₁ i = i := fun i hi => hmoves₁.fixes (by omega)
    obtain ⟨σ₂, hquicksort₂, hmoves₂, hsorted₂⟩ :=
      @ih ((v ∘ σ) ∘ σ₁) (m + 1) right (show right - (m + 1) < n by omega)
    have hfix₂ : ∀ i, i ≤ m → σ₂ i = i := fun i hi => hmoves₂.fixes (by omega)
    have hlow : ∀ i, left ≤ i → i < m → predicate (v (σ (σ₁ (σ₂ i)))) (v (σ m)) = true := by
      intro i hi hlt
      obtain ⟨hl, hr⟩ := hmoves₁.mem hi (show i ≤ m - 1 by omega)
      rw [hfix₂ i hlt.le]
      exact hbefore _ hl (by omega)
    have hhigh : ∀ i, m < i → i ≤ right → predicate (v (σ (σ₁ (σ₂ i)))) (v (σ m)) = false := by
      intro i hi hir
      obtain ⟨hl, hr⟩ := hmoves₂.mem hi hir
      rw [hfix₁ _ (by omega)]
      exact hafter _ hl hr
    refine ⟨σ * σ₁ * σ₂, ?_, ?_, fun P hP hv i j hi hij hj => ?_⟩
    · rw [hpartition]
      dsimp only
      rw [hquicksort₁, hquicksort₂]
      rfl
    · exact (hmoves.mul (hmoves₁.mono le_rfl (by omega))).mul (hmoves₂.mono (by omega) le_rfl)
    have hmem : ∀ i, left ≤ i → i ≤ right → P (v (σ i)) := by
      intro i hi hir
      obtain ⟨hl, hr⟩ := hmoves.mem hi hir
      exact hv _ hl hr
    have hmem₁ : ∀ i, left ≤ i → i ≤ right → P (v (σ (σ₁ i))) := by
      intro i hi hir
      obtain ⟨hl, hr⟩ := (hmoves₁.mono le_rfl (show m - 1 ≤ right by omega)).mem hi hir
      exact hmem _ hl hr
    have hmem₂ : ∀ i, left ≤ i → i ≤ right → P (v (σ (σ₁ (σ₂ i)))) := by
      intro i hi hir
      obtain ⟨hl, hr⟩ := (hmoves₂.mono (show left ≤ m + 1 by omega) le_rfl).mem hi hir
      exact hmem₁ _ hl hr
    show predicate (v (σ (σ₁ (σ₂ j)))) (v (σ (σ₁ (σ₂ i)))) = false
    have hpivot : P (v (σ m)) := hmem m hlm hmr
    -- Nothing is before itself, and what is before an element before the pivot is before the pivot.
    have hasymm : ∀ a, P a → predicate a (v (σ m)) = false → ∀ b, P b →
        predicate b (v (σ m)) = true → predicate a b = false := by
      intro a ha hap b hb hbp
      by_contra hab
      rw [hP.trans a b _ ha hb hpivot (by simpa using hab) hbp] at hap
      cases hap
    rcases Nat.lt_trichotomy j m with hjm | rfl | hjm
    · rw [hfix₂ i (by omega), hfix₂ j hjm.le]
      exact hsorted₁ P hP (fun i hi hir => hmem i hi (by omega)) i j hi hij (by omega)
    · rw [hfix₂ j le_rfl, hfix₁ j le_rfl]
      rcases Nat.eq_or_lt_of_le hij with rfl | hij
      · rw [hfix₂ i le_rfl, hfix₁ i le_rfl]
        exact hP.irrefl _ hpivot
      · exact hasymm _ hpivot (hP.irrefl _ hpivot) _ (hmem₂ i hi (by omega)) (hlow i hi hij)
    · rcases Nat.lt_trichotomy i m with him | rfl | him
      · exact hasymm _ (hmem₂ j (by omega) hj) (hhigh j hjm hj) _ (hmem₂ i hi (by omega))
          (hlow i hi him)
      · rw [hfix₂ i le_rfl, hfix₁ i le_rfl]
        exact hhigh j hjm hj
      · exact hsorted₂ P hP (fun i hi hir => hmem₁ i (by omega) hir) i j him hij hj

/-- The predicate compares the values of `f`, for the elements of a set. -/
def Compares (predicate : α → α → Bool) (f : α → β) (P : α → Prop) : Prop :=
  ∀ a b, P a → P b → (predicate a b = true ↔ f a < f b)

theorem Compares.isOrder {P : α → Prop} (hp : Compares predicate f P) : IsOrder predicate P where
  irrefl a ha := by
    rw [← Bool.not_eq_true, hp a a ha ha]
    exact lt_irrefl _
  trans a b c ha hb hc hab hbc :=
    (hp a c ha hc).mpr (((hp a b ha hb).mp hab).trans ((hp b c hb hc).mp hbc))

theorem quicksort_spec {P : α → Prop} (hp : Compares predicate f P) {n : ℕ} {v : ℕ → α}
    {left right : ℕ} (hn : right - left < n) (hv : ∀ i, left ≤ i → i ≤ right → P (v i)) :
    ∃ σ : Equiv.Perm ℕ, quicksort predicate n v left right = v ∘ σ ∧ Moves σ left right ∧
      ∀ i j, left ≤ i → i ≤ j → j ≤ right → f (v (σ i)) ≤ f (v (σ j)) := by
  obtain ⟨σ, hquicksort, hmoves, hsorted⟩ := quicksort_ordered predicate hn
  have hmem : ∀ i, left ≤ i → i ≤ right → P (v (σ i)) := by
    intro i hi hir
    obtain ⟨hl, hr⟩ := hmoves.mem hi hir
    exact hv _ hl hr
  refine ⟨σ, hquicksort, hmoves, fun i j hi hij hj => not_lt.mp fun hlt => ?_⟩
  rw [← hp _ _ (hmem j (by omega) hj) (hmem i hi (by omega)),
    hsorted P hp.isOrder hv i j hi hij hj] at hlt
  cases hlt

variable [Inhabited α] {sequence : List α}

theorem sort_eq (hp : Compares predicate f (· ∈ sequence)) :
    ∃ σ : Equiv.Perm ℕ, (∀ i < sequence.length, σ i < sequence.length) ∧
      sort predicate sequence =
        (List.range sequence.length).map (fun i => sequence.getD (σ i) default) ∧
      ∀ i j, i ≤ j → j < sequence.length →
        f (sequence.getD (σ i) default) ≤ f (sequence.getD (σ j) default) := by
  by_cases hlength : sequence.length = 0
  · exact ⟨1, by omega, by rw [sort, hlength]; rfl, by omega⟩
  have hmem : ∀ i, 0 ≤ i → i ≤ sequence.length - 1 → sequence.getD i default ∈ sequence := by
    intro i _ hi
    rw [List.getD_eq_getElem _ _ (show i < sequence.length by omega)]
    exact List.getElem_mem _
  obtain ⟨σ, hquicksort, hmoves, hsorted⟩ :=
    quicksort_spec hp (show sequence.length - 1 - 0 < sequence.length by omega) hmem
  refine ⟨σ, fun i hi => ?_, ?_, fun i j hij hj => hsorted i j (Nat.zero_le i) hij (by omega)⟩
  · have := (hmoves.mem (Nat.zero_le i) (show i ≤ sequence.length - 1 by omega)).2
    omega
  · rw [sort, quicksortVector, hquicksort]
    rfl

theorem map_getD_range (sequence : List α) :
    (List.range sequence.length).map (fun i => sequence.getD i default) = sequence := by
  refine List.ext_getElem (by simp) fun i hi hi' => ?_
  simp [hi']

/-- **`sort` keeps the elements.** -/
theorem sort_perm (hp : Compares predicate f (· ∈ sequence)) :
    (sort predicate sequence).Perm sequence := by
  obtain ⟨σ, hlt, hsort, -⟩ := sort_eq hp
  have hmap := (perm_map_range hlt).map fun i => sequence.getD i default
  rw [List.map_map, map_getD_range] at hmap
  rw [hsort]
  exact hmap

/-- **`sort` puts them in order.** -/
theorem sort_sorted (hp : Compares predicate f (· ∈ sequence)) :
    (sort predicate sequence).Pairwise fun a b => f a ≤ f b := by
  obtain ⟨σ, -, hsort, hsorted⟩ := sort_eq hp
  rw [hsort, List.pairwise_map]
  refine List.pairwise_lt_range.imp_of_mem fun {i j} _ hj hij => ?_
  exact hsorted i j hij.le (List.mem_range.mp hj)

end Sorted

end Xcl.MethodCombination
