import Mathlib.Data.Nat.Basic
import Mathlib.Tactic.Common

/-!
# Counting loops that may fail

* `forLoop body n i`: the body for `i`, `i + 1`, .. , `i + n - 1`;
* **`forLoop_ok`**: the rule of the invariant for a loop that ends well.
-/

namespace Loops

variable {ε σ : Type} (body : ℕ → σ → Except ε σ)

def forLoop : ℕ → ℕ → σ → Except ε σ
  | 0, _, s => pure s
  | n + 1, i, s => do forLoop n (i + 1) (← body i s)

variable {body} {n i : ℕ} {s s' : σ}

theorem bind_eq_ok {α β : Type} {x : Except ε α} {f : α → Except ε β} {b : β} :
    x >>= f = .ok b ↔ ∃ a, x = .ok a ∧ f a = .ok b := by
  cases x with
  | error => exact ⟨fun h => (by cases h), fun ⟨_, h, _⟩ => (by cases h)⟩
  | ok a => exact ⟨fun h => ⟨a, rfl, h⟩, fun ⟨_, ha, h⟩ => Except.ok.inj ha ▸ h⟩

/-- **The rule of the invariant.** -/
theorem forLoop_ok (body : ℕ → σ → Except ε σ) {P : ℕ → σ → Prop} (h : P i s)
    (hbody : ∀ j s, i ≤ j → j < i + n → P j s → ∃ s', body j s = .ok s' ∧ P (j + 1) s') :
    ∃ s', forLoop body n i s = .ok s' ∧ P (i + n) s' := by
  induction n generalizing i s with
  | zero => exact ⟨s, rfl, h⟩
  | succ n ih =>
    obtain ⟨s₁, hs₁, h₁⟩ := hbody i s (Nat.le_refl i) (by omega) h
    obtain ⟨s', hs', h'⟩ := ih h₁ fun j s hj hj' => hbody j s (by omega) (by omega)
    refine ⟨s', ?_, ?_⟩
    · simp only [forLoop, hs₁]
      exact hs'
    · rwa [Nat.add_right_comm, Nat.add_assoc] at h'

theorem forLoop_inv {P : σ → Prop} (h : P s) (hbody : ∀ j s s', P s → body j s = .ok s' → P s')
    (hloop : forLoop body n i s = .ok s') : P s' := by
  induction n generalizing i s with
  | zero =>
    cases hloop
    exact h
  | succ n ih =>
    obtain ⟨s₁, hs₁, hloop⟩ := bind_eq_ok.mp hloop
    exact ih (hbody i s s₁ h hs₁) hloop

theorem forLoop_round {P : σ → Prop} (h : P s)
    (hbody : ∀ j s s', P s → body j s = .ok s' → P s') (hloop : forLoop body n i s = .ok s')
    {j : ℕ} (hj : i ≤ j) (hj' : j < i + n) : ∃ s₁ s₂, P s₁ ∧ body j s₁ = .ok s₂ := by
  induction n generalizing i s with
  | zero => omega
  | succ n ih =>
    obtain ⟨s₁, hs₁, hloop⟩ := bind_eq_ok.mp hloop
    by_cases hij : i = j
    · exact ⟨s, s₁, h, hij ▸ hs₁⟩
    · exact ih (hbody i s s₁ h hs₁) hloop (by omega) (by omega)

theorem forLoop_error {P : σ → Prop} {e : ε} (h : P s)
    (hbody : ∀ j s s', P s → body j s = .ok s' → P s') (hloop : forLoop body n i s = .error e) :
    ∃ j s₁, i ≤ j ∧ j < i + n ∧ P s₁ ∧ body j s₁ = .error e := by
  induction n generalizing i s with
  | zero => cases hloop
  | succ n ih =>
    cases hround : body i s with
    | error e' =>
      simp only [forLoop, hround] at hloop
      cases hloop
      exact ⟨i, s, Nat.le_refl i, by omega, h, hround⟩
    | ok s₁ =>
      simp only [forLoop, hround] at hloop
      obtain ⟨j, s₂, hj, hj', hs₂, he⟩ := ih (hbody i s s₁ h hround) hloop
      exact ⟨j, s₂, by omega, by omega, hs₂, he⟩

end Loops
