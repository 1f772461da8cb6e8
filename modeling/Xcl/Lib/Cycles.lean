import Mathlib.Data.Set.Card
import Mathlib.Data.Set.Finite.Lattice
import Mathlib.Dynamics.PeriodicPts.Defs
import Mathlib.Tactic

/-!
# Short cycles of a function

* `ShortOn f S`: no cycle of `f` through a point of `S` has three or more points;
* **`ShortOn.of_rel`**: a function that makes, on related points, one or more steps of `f` at a time
  has short cycles when `f` does.
-/

namespace Xcl.Cycles

variable {α β : Type*} {f : α → α} {g : β → β} {S : Set α} {T : Set β} {R : α → β → Prop}

/-- Every cycle of `f` through a point of `S` has at most two points. -/
def ShortOn (f : α → α) (S : Set α) : Prop :=
  ∀ p ∈ S, ∀ n, 0 < n → f^[n] p = p → f (f p) = p

theorem iterate_mem (hS : ∀ p ∈ S, f p ∈ S) {p : α} (hp : p ∈ S) (n : ℕ) : f^[n] p ∈ S := by
  induction n with
  | zero => exact hp
  | succ n ih =>
    rw [Function.iterate_succ_apply']
    exact hS _ ih

theorem exists_periodic (hfin : S.Finite) (hS : ∀ p ∈ S, f p ∈ S) {p : α} (hp : p ∈ S) :
    ∃ N, ∀ K ≥ N, ∃ d > 0, f^[d] (f^[K] p) = f^[K] p := by
  obtain ⟨i, j, hij, heq⟩ :=
    hfin.exists_lt_map_eq_of_forall_mem (f := fun n => f^[n] p) (iterate_mem hS hp)
  refine ⟨i, fun K hK => ⟨j - i, by omega, ?_⟩⟩
  have hK' : f^[K] p = f^[K - i] (f^[i] p) := by
    rw [← Function.iterate_add_apply, Nat.sub_add_cancel hK]
  have hji : f^[j - i] (f^[i] p) = f^[i] p := by
    rw [← Function.iterate_add_apply, Nat.sub_add_cancel hij.le]
    exact heq.symm
  rw [hK', ← Function.iterate_add_apply, Nat.add_comm, Function.iterate_add_apply, hji]

theorem iterate_eq_or {q : α} (hq : f (f q) = q) (n : ℕ) : f^[n] q = q ∨ f^[n] q = f q := by
  induction n with
  | zero => exact .inl rfl
  | succ n ih =>
    rw [Function.iterate_succ_apply']
    rcases ih with h | h
    · exact .inr (by rw [h])
    · exact .inl (by rw [h, hq])

theorem iterate_rel (hS : ∀ p ∈ S, f p ∈ S)
    (hstep : ∀ p ∈ S, ∀ a, R p a → ∃ k, R (f^[k + 1] p) (g a)) {p : α} (hp : p ∈ S) {a : β}
    (ha : R p a) (n : ℕ) : ∃ K ≥ n, R (f^[K] p) (g^[n] a) := by
  induction n with
  | zero => exact ⟨0, le_rfl, ha⟩
  | succ n ih =>
    obtain ⟨K, hK, hR⟩ := ih
    obtain ⟨k, hk⟩ := hstep _ (iterate_mem hS hp K) _ hR
    refine ⟨k + 1 + K, by omega, ?_⟩
    rw [Function.iterate_add_apply, Function.iterate_succ_apply' g]
    exact hk

/-- **Short cycles stay short.** -/
theorem ShortOn.of_rel (h : ShortOn f S) (hfin : S.Finite) (hS : ∀ p ∈ S, f p ∈ S)
    (hunique : ∀ {p a b}, R p a → R p b → a = b)
    (hstep : ∀ p ∈ S, ∀ a, R p a → ∃ k, R (f^[k + 1] p) (g a))
    (hT : ∀ a ∈ T, ∃ p ∈ S, R p a) : ShortOn g T := by
  intro a ha n hn hcycle
  obtain ⟨p, hp, hpa⟩ := hT a ha
  obtain ⟨N, hN⟩ := exists_periodic hfin hS hp
  -- after many rounds of the cycle of `a`, the related point is on a cycle as well
  obtain ⟨K, hK, hR⟩ := iterate_rel hS hstep hp hpa (n * N)
  have hround : g^[n * N] a = a := by
    rw [Function.iterate_mul]
    exact Function.iterate_fixed hcycle N
  rw [hround] at hR
  obtain ⟨d, hd, hperiod⟩ := hN K (le_trans (Nat.le_mul_of_pos_left N hn) hK)
  have hq : f (f (f^[K] p)) = f^[K] p := h _ (iterate_mem hS hp K) d hd hperiod
  have hqS := iterate_mem hS hp K
  generalize f^[K] p = q at hR hq hqS
  obtain ⟨k₁, hR₁⟩ := hstep q hqS a hR
  obtain ⟨k₂, hR₂⟩ := hstep _ (iterate_mem hS hqS _) _ hR₁
  rw [← Function.iterate_add_apply] at hR₂
  have hfixed : g a = g (g a) → g (g a) = a := by
    intro heq
    have : ∀ m, g^[m] (g a) = g a := fun m => Function.iterate_fixed heq.symm m
    obtain ⟨m, rfl⟩ : ∃ m, n = m + 1 := ⟨n - 1, by omega⟩
    rw [Function.iterate_succ_apply, this] at hcycle
    rw [← heq, hcycle]
  rcases iterate_eq_or hq (k₁ + 1) with h₁ | h₁ <;>
    rcases iterate_eq_or hq (k₂ + 1 + (k₁ + 1)) with h₂ | h₂ <;> rw [h₁] at hR₁ <;> rw [h₂] at hR₂
  · rw [hunique hR₂ hR]
  · have hga := hunique hR₁ hR
    rw [hga, hga]
  · rw [hunique hR₂ hR]
  · exact hfixed (hunique hR₁ hR₂)

/-! ## Orbits -/

/-- The points that are reached from `p`. -/
def orbit (f : α → α) (p : α) : Set α := Set.range fun n => f^[n] p

theorem mem_orbit_self (f : α → α) (p : α) : p ∈ orbit f p := ⟨0, rfl⟩

theorem orbit_subset (hS : ∀ p ∈ S, f p ∈ S) {p : α} (hp : p ∈ S) : orbit f p ⊆ S := by
  rintro x ⟨n, rfl⟩
  exact iterate_mem hS hp n

theorem ncard_orbit_le {φ : α → β} (hS : ∀ p ∈ S, f p ∈ S)
    (hstep : ∀ p ∈ S, ∃ k, g (φ p) = φ (f^[k + 1] p)) {p : α} (hp : p ∈ S)
    (hfin : (orbit f p).Finite) : (orbit g (φ p)).ncard ≤ (orbit f p).ncard := by
  have hsub : orbit g (φ p) ⊆ Set.image φ (orbit f p) := by
    rintro x ⟨n, rfl⟩
    have hrel : ∀ q ∈ S, ∀ a, a = φ q → ∃ k, g a = φ (f^[k + 1] q) := by
      rintro q hq a rfl
      exact hstep q hq
    obtain ⟨K, -, hK⟩ := iterate_rel (R := fun q a => a = φ q) hS hrel hp rfl n
    exact ⟨f^[K] p, ⟨K, rfl⟩, hK.symm⟩
  exact (Set.ncard_le_ncard hsub (hfin.image φ)).trans (Set.ncard_image_le hfin)

/-- **Two steps at a time.** From the second point on, a function that makes two steps of `f` at a
time does not come back to the first one. -/
theorem ncard_orbit_lt {φ : α → β} (h : ShortOn f S) (hS : ∀ p ∈ S, f p ∈ S)
    (hstep : ∀ p ∈ S, g (φ p) = φ (f (f p))) {p : α} (hp : p ∈ S) (hmoves : f p ≠ p)
    (hfin : (orbit f p).Finite) : (orbit g (φ (f p))).ncard < (orbit f p).ncard := by
  have hiterate : ∀ n, g^[n] (φ (f p)) = φ (f^[2 * n + 1] p) := by
    intro n
    induction n with
    | zero => rfl
    | succ n ih =>
      have hnext : f^[2 * (n + 1) + 1] p = f (f (f^[2 * n + 1] p)) := by
        rw [← Function.iterate_succ_apply' f, ← Function.iterate_succ_apply' f]
        rfl
      rw [Function.iterate_succ_apply', ih, hstep _ (iterate_mem hS hp _), hnext]
  have hoff : ∀ n, f^[2 * n + 1] p ≠ p := by
    intro n heq
    have hshort := h p hp _ (Nat.succ_pos _) heq
    rw [Function.iterate_succ_apply', Function.iterate_mul] at heq
    rw [Function.iterate_fixed (f := f^[2]) hshort n] at heq
    exact hmoves heq
  have hsub : orbit g (φ (f p)) ⊆ Set.image φ (orbit f p \ {p}) := by
    rintro x ⟨n, rfl⟩
    exact ⟨_, ⟨⟨2 * n + 1, rfl⟩, hoff n⟩, (hiterate n).symm⟩
  calc (orbit g (φ (f p))).ncard
      ≤ (orbit f p \ {p}).ncard :=
        (Set.ncard_le_ncard hsub (hfin.sdiff.image φ)).trans (Set.ncard_image_le hfin.sdiff)
    _ < (orbit f p).ncard := Set.ncard_sdiff_singleton_lt_of_mem (mem_orbit_self f p) hfin

end Xcl.Cycles
