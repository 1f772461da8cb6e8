import Mathlib
import Xcl.Blocks.Model

/-!
# The marks of a walk

* `touch`: what a walk does to `*blocks*`, given the names that it looks up;
* `Ensures`: a walk touches the entries of these names, and its result has a property.
-/

namespace Xcl.Blocks

/-! ## Touched entries -/

/-- For every name in `p` the first entry with that name is marked. -/
def touch (p : Name → Bool) : List Entry → List Entry
  | [] => []
  | entry :: blocks =>
    { entry with used := entry.used || p entry.name } ::
      touch (fun name => p name && !(entry.name == name)) blocks

theorem touch_false (blocks : List Entry) : touch (fun _ => false) blocks = blocks := by
  induction blocks with
  | nil => rfl
  | cons entry blocks ih => simp [touch, ih]

theorem touch_touch (p q : Name → Bool) (blocks : List Entry) :
    touch q (touch p blocks) = touch (fun name => p name || q name) blocks := by
  induction blocks generalizing p q with
  | nil => rfl
  | cons entry blocks ih => simp [touch, ih, Bool.or_assoc, Bool.and_or_distrib_right]

theorem mark_eq_touch {name : Name} {blocks blocks' : List Entry}
    (h : mark name blocks = some blocks') : blocks' = touch (name == ·) blocks := by
  induction blocks generalizing blocks' with
  | nil => simp [mark] at h
  | cons entry blocks ih =>
    rw [mark] at h
    split at h
    · next heq =>
      subst heq
      obtain rfl := Option.some.inj h
      simp [touch, touch_false]
    · next hne =>
      obtain ⟨rest, hrest, rfl⟩ := Option.map_eq_some_iff.1 h
      have hother : (name == entry.name) = false := by simpa using Ne.symm hne
      have hsame : (fun n => (name == n) && !(entry.name == n)) = (name == ·) := by
        funext n
        by_cases hn : name = n
        · subst hn
          simp [hne]
        · simp [hn]
      simp [touch, hother, hsame, ← ih hrest]

/-! ## Walks -/

variable {α β : Type}

/-- When the walk succeeds, it has touched the entries of the names in `p`, and its result is
in `P`. -/
def Ensures (walk : Walk α) (p : Name → Bool) (P : α → Prop) : Prop :=
  ∀ blocks a blocks', walk blocks = .ok (a, blocks') → blocks' = touch p blocks ∧ P a

variable {walk : Walk α} {p q : Name → Bool} {P : α → Prop} {Q : β → Prop}

theorem Ensures.mono {R : α → Prop} (h : Ensures walk p P) (hpq : ∀ name, p name = q name)
    (hR : ∀ a, P a → R a) : Ensures walk q R := by
  obtain rfl : p = q := funext hpq
  intro blocks a blocks' hrun
  exact ⟨(h _ _ _ hrun).1, hR _ (h _ _ _ hrun).2⟩

theorem ensures_pure {a : α} (h : P a) : Ensures (pure a) (fun _ => false) P := by
  intro blocks b blocks' hrun
  obtain ⟨rfl, rfl⟩ : a = b ∧ blocks = blocks' := by
    simpa [pure, StateT.pure, Except.pure] using hrun
  exact ⟨(touch_false _).symm, h⟩

theorem Ensures.bind {f : α → Walk β} (h : Ensures walk p P) (hf : ∀ a, P a → Ensures (f a) q Q) :
    Ensures (walk >>= f) (fun name => p name || q name) Q := by
  intro blocks b blocks'' hrun
  cases hwalk : walk blocks with
  | error e => simp [Bind.bind, StateT.bind, Except.bind, hwalk] at hrun
  | ok r =>
    obtain ⟨a, blocks'⟩ := r
    simp only [Bind.bind, StateT.bind, Except.bind, hwalk] at hrun
    obtain ⟨rfl, hP⟩ := h _ _ _ hwalk
    obtain ⟨rfl, hQ⟩ := hf a hP _ _ _ hrun
    exact ⟨touch_touch p q blocks, hQ⟩

theorem Ensures.withEntry (h : Ensures walk p P) (name : Name) :
    Ensures (withEntry name walk) (fun n => p n && !(name == n))
      (fun r => P r.1 ∧ r.2 = p name) := by
  intro blocks r blocks'' hrun
  cases hwalk : walk (⟨name, false⟩ :: blocks) with
  | error e => simp [Blocks.withEntry, Bind.bind, Except.bind, hwalk] at hrun
  | ok s =>
    obtain ⟨a, blocks'⟩ := s
    obtain ⟨rfl, hP⟩ := h _ _ _ hwalk
    simp only [Blocks.withEntry, Bind.bind, Except.bind, hwalk, pure, Except.pure, touch,
      Except.ok.injEq, Prod.mk.injEq] at hrun
    obtain ⟨rfl, rfl⟩ := hrun
    exact ⟨rfl, hP, by simp⟩

theorem ensures_returnFrom {value : Walk Form} {P : Form → Prop} (h : Ensures value p P)
    (name : Name) : Ensures (precompileReturnFrom name value) (fun n => name == n || p n)
      (fun form' => ∃ value', form' = .returnFrom name value' ∧ P value') := by
  intro blocks form' blocks'' hrun
  cases hmark : mark name blocks with
  | none =>
    simp [precompileReturnFrom, bind, StateT.bind, Except.bind, hmark, MonadStateOf.get,
      StateT.get, get, getThe, pure, Except.pure, throw, throwThe, MonadExceptOf.throw,
      StateT.lift] at hrun
  | some blocks' =>
    cases hvalue : value blocks' with
    | error e =>
      simp [precompileReturnFrom, bind, StateT.bind, Except.bind, hmark, hvalue, MonadStateOf.get,
        StateT.get, get, getThe, pure, Except.pure, set, StateT.set] at hrun
    | ok r =>
      obtain ⟨value', blocks₂⟩ := r
      obtain ⟨rfl, hP⟩ := h _ _ _ hvalue
      obtain ⟨rfl, rfl⟩ : Form.returnFrom name value' = form' ∧ touch p blocks' = blocks'' := by
        simpa [precompileReturnFrom, bind, StateT.bind, Except.bind, hmark, hvalue,
          MonadStateOf.get, StateT.get, get, getThe, pure, StateT.pure, Except.pure, set,
          StateT.set] using hrun
      obtain rfl := mark_eq_touch hmark
      exact ⟨touch_touch _ p blocks, value', rfl, hP⟩

end Xcl.Blocks
