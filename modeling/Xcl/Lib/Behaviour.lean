import Mathlib.Tactic

/-!
# Behaviours of transition systems with silent steps

A configuration takes a silent step, emits an event or halts. Two configurations behave alike when
they emit the same finite sequences of events and halt with the same outcomes after the same
sequences; then one diverges, silently or not, exactly when the other does.

* `Step`: what a configuration does;
* **`sameBehaviour_of_matched`**: configurations related by such a simulation behave alike.
-/

namespace Xcl.Behaviour

variable {ε γ δ ω : Type}

/-- What a configuration does: `ε` are the events and `ω` the outcomes. -/
inductive Step (ε γ ω : Type)
  | silent (c : γ)
  | emit (e : ε) (c : γ)
  | halt (o : ω)

/-- The events `t` can be seen from `c` on. -/
inductive Emits (step : γ → Step ε γ ω) : γ → List ε → Prop
  | nil (c : γ) : Emits step c []
  | silent {c c' : γ} {t : List ε} : step c = .silent c' → Emits step c' t → Emits step c t
  | emit {c c' : γ} {e : ε} {t : List ε} :
    step c = .emit e c' → Emits step c' t → Emits step c (e :: t)

/-- The system halts from `c` on after the events `t` with outcome `o`. -/
inductive Halts (step : γ → Step ε γ ω) : γ → List ε → ω → Prop
  | halt {c : γ} {o : ω} : step c = .halt o → Halts step c [] o
  | silent {c c' : γ} {t : List ε} {o : ω} :
    step c = .silent c' → Halts step c' t o → Halts step c t o
  | emit {c c' : γ} {e : ε} {t : List ε} {o : ω} :
    step c = .emit e c' → Halts step c' t o → Halts step c (e :: t) o

/-- The configurations `c` and `d` of two systems behave alike. -/
structure SameBehaviour (step₁ : γ → Step ε γ ω) (step₂ : δ → Step ε δ ω) (c : γ) (d : δ) :
    Prop where
  emits : ∀ t, Emits step₁ c t ↔ Emits step₂ d t
  halts : ∀ t o, Halts step₁ c t o ↔ Halts step₂ d t o

/-- One step of a simulation `R` at rank `k`. -/
inductive Matched (step₁ : γ → Step ε γ ω) (step₂ : δ → Step ε δ ω) (R : ℕ → γ → δ → Prop)
    (k : ℕ) (c : γ) (d : δ) : Prop
  | silent {c' : γ} {d' : δ} (k' : ℕ) :
    step₁ c = .silent c' → step₂ d = .silent d' → R k' c' d' → Matched step₁ step₂ R k c d
  | emit {c' : γ} {d' : δ} {e : ε} (k' : ℕ) :
    step₁ c = .emit e c' → step₂ d = .emit e d' → R k' c' d' → Matched step₁ step₂ R k c d
  | halt {o : ω} : step₁ c = .halt o → step₂ d = .halt o → Matched step₁ step₂ R k c d
  | left {c' : γ} {k' : ℕ} :
    step₁ c = .silent c' → k' < k → R k' c' d → Matched step₁ step₂ R k c d
  | right {d' : δ} {k' : ℕ} :
    step₂ d = .silent d' → k' < k → R k' c d' → Matched step₁ step₂ R k c d

variable {step₁ : γ → Step ε γ ω} {step₂ : δ → Step ε δ ω} {R : ℕ → γ → δ → Prop}

theorem Matched.flip {k : ℕ} {c : γ} {d : δ} (h : Matched step₁ step₂ R k c d) :
    Matched step₂ step₁ (fun k d c => R k c d) k d c := by
  cases h with
  | silent k' h₁ h₂ hR => exact .silent k' h₂ h₁ hR
  | emit k' h₁ h₂ hR => exact .emit k' h₂ h₁ hR
  | halt h₁ h₂ => exact .halt h₂ h₁
  | left h₁ hk hR => exact .right h₁ hk hR
  | right h₂ hk hR => exact .left h₂ hk hR

theorem of_step {Q : δ → Prop} {c : γ} (hR : ∀ k c d, R k c d → Matched step₁ step₂ R k c d)
    (hback : ∀ d d', step₂ d = .silent d' → Q d' → Q d)
    (hsilent : ∀ k c' d, step₁ c = .silent c' → R k c' d → Q d)
    (hemit : ∀ k e c' d d', step₁ c = .emit e c' → step₂ d = .emit e d' → R k c' d' → Q d)
    (hhalt : ∀ o d, step₁ c = .halt o → step₂ d = .halt o → Q d) {k : ℕ} {d : δ}
    (hcd : R k c d) : Q d := by
  induction k using Nat.strong_induction_on generalizing d with
  | _ k ih =>
    cases hR _ _ _ hcd with
    | silent _ h₁ h₂ hR' => exact hback _ _ h₂ (hsilent _ _ _ h₁ hR')
    | emit _ h₁ h₂ hR' => exact hemit _ _ _ _ _ h₁ h₂ hR'
    | halt h₁ h₂ => exact hhalt _ _ h₁ h₂
    | left h₁ _ hR' => exact hsilent _ _ _ h₁ hR'
    | right h₂ hk hR' => exact hback _ _ h₂ (ih _ hk hR')

theorem Emits.of_matched (hR : ∀ k c d, R k c d → Matched step₁ step₂ R k c d) {k : ℕ} {c : γ}
    {d : δ} {t : List ε} (h : Emits step₁ c t) (hcd : R k c d) : Emits step₂ d t := by
  induction h generalizing k d with
  | nil c => exact .nil d
  | silent hs _ ih =>
    refine of_step (Q := fun d => Emits step₂ d _) hR (fun _ _ => .silent) (fun _ _ _ h₁ h => ?_)
      (fun _ _ _ _ _ h₁ => nomatch hs.symm.trans h₁) (fun _ _ h₁ => nomatch hs.symm.trans h₁) hcd
    cases hs.symm.trans h₁
    exact ih h
  | emit hs _ ih =>
    refine of_step (Q := fun d => Emits step₂ d _) hR (fun _ _ => .silent)
      (fun _ _ _ h₁ => nomatch hs.symm.trans h₁)
      (fun _ _ _ _ _ h₁ h₂ h => ?_) (fun _ _ h₁ => nomatch hs.symm.trans h₁) hcd
    cases hs.symm.trans h₁
    exact .emit h₂ (ih h)

theorem Halts.of_matched (hR : ∀ k c d, R k c d → Matched step₁ step₂ R k c d) {k : ℕ} {c : γ}
    {d : δ} {t : List ε} {o : ω} (h : Halts step₁ c t o) (hcd : R k c d) : Halts step₂ d t o := by
  induction h generalizing k d with
  | halt hs =>
    refine of_step (Q := fun d => Halts step₂ d _ _) hR (fun _ _ => .silent)
      (fun _ _ _ h₁ => nomatch hs.symm.trans h₁)
      (fun _ _ _ _ _ h₁ => nomatch hs.symm.trans h₁) (fun _ _ h₁ h₂ => ?_) hcd
    cases hs.symm.trans h₁
    exact .halt h₂
  | silent hs _ ih =>
    refine of_step (Q := fun d => Halts step₂ d _ _) hR (fun _ _ => .silent) (fun _ _ _ h₁ h => ?_)
      (fun _ _ _ _ _ h₁ => nomatch hs.symm.trans h₁) (fun _ _ h₁ => nomatch hs.symm.trans h₁) hcd
    cases hs.symm.trans h₁
    exact ih h
  | emit hs _ ih =>
    refine of_step (Q := fun d => Halts step₂ d _ _) hR (fun _ _ => .silent)
      (fun _ _ _ h₁ => nomatch hs.symm.trans h₁)
      (fun _ _ _ _ _ h₁ h₂ h => ?_) (fun _ _ h₁ => nomatch hs.symm.trans h₁) hcd
    cases hs.symm.trans h₁
    exact .emit h₂ (ih h)

/-- **Simulation.** Configurations related by a ranked simulation behave alike. -/
theorem sameBehaviour_of_matched (hR : ∀ k c d, R k c d → Matched step₁ step₂ R k c d) {k : ℕ}
    {c : γ} {d : δ} (hcd : R k c d) : SameBehaviour step₁ step₂ c d := by
  have hR' : ∀ k d c, R k c d → Matched step₂ step₁ (fun k d c => R k c d) k d c :=
    fun k d c h => (hR k c d h).flip
  exact ⟨fun t => ⟨fun h => h.of_matched hR hcd, fun h => h.of_matched hR' hcd⟩,
    fun t o => ⟨fun h => h.of_matched hR hcd, fun h => h.of_matched hR' hcd⟩⟩

end Xcl.Behaviour
