import Mathlib.Tactic

/-!
# Computations with exits

A computation changes a state and ends with a value or leaves by an exit. Where the state records
the history of the computation, a property of the history can be assumed for the whole of it: it
holds of each part, because the history only grows.

* `triple_pure`, **`triple_bind`**, `triple_catchExit`, `Triple.conseq`: the rules.
-/

namespace Xcl.Exits

variable {σ ε α β : Type}

/-- The state is kept when the computation leaves. -/
def Comp (σ ε α : Type) : Type := σ → Except ε α × σ

namespace Comp

def bind (m : Comp σ ε α) (f : α → Comp σ ε β) : Comp σ ε β := fun s =>
  match m s with
  | (.ok a, s') => f a s'
  | (.error e, s') => (.error e, s')

instance : Monad (Comp σ ε) where
  pure a := fun s => (.ok a, s)
  bind := bind

instance : LawfulMonad (Comp σ ε) := LawfulMonad.mk' (Comp σ ε)
  (by
    intro α m
    funext s
    change bind m _ s = m s
    unfold bind
    generalize m s = r
    obtain ⟨result, s'⟩ := r
    cases result <;> rfl)
  (fun _ _ => rfl)
  (by
    intro α β γ m f g
    funext s
    change bind (bind m f) g s = bind m (fun a => bind (f a) g) s
    unfold bind
    generalize m s = r
    obtain ⟨result, s'⟩ := r
    cases result <;> rfl)

def get : Comp σ ε σ := fun s => (.ok s, s)

def modify (f : σ → σ) : Comp σ ε Unit := fun s => (.ok (), f s)

def exit (e : ε) : Comp σ ε α := fun s => (.error e, s)

/-- The exits that the handler knows end here. -/
def catchExit (m : Comp σ ε α) (handler : ε → Option (Comp σ ε α)) : Comp σ ε α := fun s =>
  match m s with
  | (.ok a, s') => (.ok a, s')
  | (.error e, s') =>
    match handler e with
    | some h => h s'
    | none => (.error e, s')

end Comp

/-! ## Guarded triples -/

/-- The states are ordered by their histories, and `ok` says something of the whole history. -/
structure Guard (σ : Type) where
  le : σ → σ → Prop
  ok : σ → Prop
  refl : ∀ s, le s s
  trans : ∀ s₁ s₂ s₃, le s₁ s₂ → le s₂ s₃ → le s₁ s₃
  ok_of_le : ∀ s₁ s₂, le s₁ s₂ → ok s₂ → ok s₁

def Post (Q : α → σ → Prop) (E : ε → σ → Prop) : Except ε α × σ → Prop
  | (.ok a, s) => Q a s
  | (.error e, s) => E e s

/-- The history only grows; from a state with `P`, if `ok` holds of the history at the end, then
`Q` holds there, or `E` where the computation leaves. -/
def Triple (G : Guard σ) (P : σ → Prop) (m : Comp σ ε α) (Q : α → σ → Prop) (E : ε → σ → Prop) :
    Prop :=
  ∀ s, G.le s (m s).2 ∧ (P s → G.ok (m s).2 → Post Q E (m s))

variable {G : Guard σ} {P S : σ → Prop} {Q Q' : α → σ → Prop} {R : β → σ → Prop}
  {E F : ε → σ → Prop}

theorem Triple.conseq {m : Comp σ ε α} (h : Triple G S m Q' F) (hpre : ∀ s, P s → S s)
    (hpost : ∀ a s, Q' a s → Q a s) (hexit : ∀ e s, F e s → E e s) : Triple G P m Q E := by
  intro s
  refine ⟨(h s).1, fun hp hok => ?_⟩
  have hpost' := (h s).2 (hpre s hp) hok
  generalize m s = r at hpost' ⊢
  obtain ⟨result, s'⟩ := r
  cases result with
  | ok a => exact hpost a s' hpost'
  | error e => exact hexit e s' hpost'

theorem Triple.weaken_pre {m : Comp σ ε α} (h : Triple G S m Q E) (hpre : ∀ s, P s → S s) :
    Triple G P m Q E := h.conseq hpre (fun _ _ => id) fun _ _ => id

/-- A fact that follows from the precondition, whatever the state is. -/
theorem Triple.of_imp {m : Comp σ ε α} {c : Prop} (hpre : ∀ s, P s → c)
    (hgrows : ∀ s, G.le s (m s).2) (h : c → Triple G P m Q E) : Triple G P m Q E := by
  intro s
  exact ⟨hgrows s, fun hp hok => (h (hpre s hp) s).2 hp hok⟩

theorem Triple.frame {m : Comp σ ε α} (h : Triple G P m Q E) (c : Prop) :
    Triple G (fun s => c ∧ P s) m (fun a s => c ∧ Q a s) (fun e s => c ∧ E e s) := by
  intro s
  refine ⟨(h s).1, fun hp hok => ?_⟩
  have hpost := (h s).2 hp.2 hok
  generalize m s = r at hpost ⊢
  obtain ⟨result, s'⟩ := r
  cases result with
  | ok a => exact ⟨hp.1, hpost⟩
  | error e => exact ⟨hp.1, hpost⟩

theorem Triple.carry {m : Comp σ ε α} (h : Triple G P m Q E) (c : Prop) :
    Triple G (fun s => c ∧ P s) m (fun a s => c ∧ Q a s) E :=
  (h.frame c).conseq (fun _ => id) (fun _ _ => id) fun _ _ h => h.2

theorem triple_forall {γ : Type} {m : Comp σ ε α} (part : σ → γ)
    (h : ∀ x, Triple G (fun s => P s ∧ part s = x) m Q E) : Triple G P m Q E := by
  intro s
  have hs := h (part s) s
  exact ⟨hs.1, fun hp => hs.2 ⟨hp, rfl⟩⟩

theorem triple_exists {γ : Type} [Nonempty γ] {P : γ → σ → Prop} {m : Comp σ ε α}
    (h : ∀ x, Triple G (P x) m Q E) : Triple G (fun s => ∃ x, P x s) m Q E := by
  intro s
  refine ⟨(h (Classical.arbitrary γ) s).1, ?_⟩
  rintro ⟨x, hp⟩
  exact (h x s).2 hp

theorem triple_pure {a : α} (h : ∀ s, P s → G.ok s → Q a s) :
    Triple G P (pure a : Comp σ ε α) Q E := fun s => ⟨G.refl s, h s⟩

theorem triple_get {Q : σ → σ → Prop} (h : ∀ s, P s → G.ok s → Q s s) :
    Triple G P (Comp.get : Comp σ ε σ) Q E := fun s => ⟨G.refl s, h s⟩

theorem triple_modify {f : σ → σ} {Q : Unit → σ → Prop} (hle : ∀ s, G.le s (f s))
    (h : ∀ s, P s → G.ok (f s) → Q () (f s)) : Triple G P (Comp.modify f : Comp σ ε Unit) Q E :=
  fun s => ⟨hle s, h s⟩

theorem triple_exit {e : ε} (h : ∀ s, P s → G.ok s → E e s) :
    Triple G P (Comp.exit e : Comp σ ε α) Q E := fun s => ⟨G.refl s, h s⟩

/-- Nothing is to be shown after a step that breaks the assumption. -/
theorem Triple.of_not_ok {m : Comp σ ε α} (hgrows : ∀ s, G.le s (m s).2)
    (hpre : ∀ s, P s → ¬ G.ok s) : Triple G P m Q E := by
  intro s
  exact ⟨hgrows s, fun hp hok => absurd (G.ok_of_le _ _ (hgrows s) hok) (hpre s hp)⟩

theorem Triple.of_false {m : Comp σ ε α} (h : Triple G P m Q E) :
    Triple G (fun _ => False) m Q' F := fun s => ⟨(h s).1, fun hp => hp.elim⟩

theorem Triple.grows {m : Comp σ ε α} (h : Triple G P m Q E) (s : σ) : G.le s (m s).2 := (h s).1

/-- **Sequence**: the history after the first part is a part of the whole. -/
theorem triple_bind {m : Comp σ ε α} {f : α → Comp σ ε β} (hm : Triple G P m Q E)
    (hf : ∀ a, Triple G (Q a) (f a) R E) : Triple G P (m >>= f) R E := by
  intro s
  have h := hm s
  change G.le s (Comp.bind m f s).2 ∧ (P s → G.ok (Comp.bind m f s).2 → Post R E (Comp.bind m f s))
  unfold Comp.bind
  generalize m s = r at h ⊢
  obtain ⟨result, s₁⟩ := r
  cases result with
  | error e => exact h
  | ok a =>
    have hrest := hf a s₁
    refine ⟨G.trans _ _ _ h.1 hrest.1, fun hp hok => hrest.2 ?_ hok⟩
    exact h.2 hp (G.ok_of_le _ _ hrest.1 hok)

theorem triple_ite {c : Prop} [Decidable c] {m m' : Comp σ ε α}
    (h : c → Triple G P m Q E) (h' : ¬ c → Triple G P m' Q E) :
    Triple G P (if c then m else m') Q E := by
  split
  · exact h ‹_›
  · exact h' ‹_›

theorem triple_catchExit {m : Comp σ ε α} {handler : ε → Option (Comp σ ε α)}
    (hm : Triple G P m Q F)
    (hhandler : ∀ e h, handler e = some h → Triple G (F e) h Q E)
    (hpass : ∀ e s, handler e = none → F e s → E e s) :
    Triple G P (m.catchExit handler) Q E := by
  intro s
  have h := hm s
  unfold Comp.catchExit
  generalize m s = r at h ⊢
  obtain ⟨result, s₁⟩ := r
  cases result with
  | ok a => exact h
  | error e =>
    dsimp only
    cases hh : handler e with
    | none => exact ⟨h.1, fun hp hok => hpass e s₁ hh (h.2 hp hok)⟩
    | some k =>
      have hrest := hhandler e k hh s₁
      refine ⟨G.trans _ _ _ h.1 hrest.1, fun hp hok => hrest.2 ?_ hok⟩
      exact h.2 hp (G.ok_of_le _ _ hrest.1 hok)

end Xcl.Exits
