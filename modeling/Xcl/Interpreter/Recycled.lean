import Xcl.Interpreter.Sound

/-!
# Frames in the pool

* **`recycled_iff_no_release`**: no frame of the pool is ever live exactly if no unwinding puts a
  frame into the pool.
-/

namespace Xcl.Interpreter

open Xcl.Exits Comp

theorem whole_run {p : Policy} (hp : p.Whole) {specialVariable : Symbol → Bool}
    {symbolValue : Symbol → Option Value} {n : ℕ} {form : Form}
    (hmeets : ∀ m ∈ (run specialVariable symbolValue n form).2.trace, p.meets m) :
    (run specialVariable symbolValue n form).1 ≠ .error .int3 ∧
      ∀ m ∈ (run specialVariable symbolValue n form).2.trace,
        m.control.Recycled ∧ ∀ f, m.step ≠ .release f := by
  obtain ⟨hfinal, hhistory⟩ := run_spec (Or.inr hp) hmeets
  refine ⟨fun h => hfinal _ h, fun m hm => ?_⟩
  obtain ⟨⟨chain, hchained⟩, hstep⟩ := hhistory.chained hp m hm
  exact ⟨hchained.recycled, hstep⟩

/-- Unwindings put no frames into the pool. -/
def noRelease : Policy where
  meets m := ∀ f, m.step ≠ .release f

def alwaysRecycled : Policy where
  meets m := m.control.Recycled

/-- **The pool holds no live frame at any moment, exactly if no unwinding puts a frame there.** -/
theorem recycled_iff_no_release (specialVariable : Symbol → Bool)
    (symbolValue : Symbol → Option Value) (n : ℕ) (form : Form) :
    ((run specialVariable symbolValue n form).1 ≠ .error .int3 ∧
        ∀ m ∈ (run specialVariable symbolValue n form).2.trace, m.control.Recycled) ↔
      ∀ m ∈ (run specialVariable symbolValue n form).2.trace, ∀ f, m.step ≠ .release f := by
  constructor
  · rintro ⟨-, hrecycled⟩ m hm
    exact ((whole_run (p := alwaysRecycled) (fun _ hm _ _ => hm) hrecycled).2 m hm).2
  · intro hrelease
    obtain ⟨hint3, hmoments⟩ :=
      whole_run (p := noRelease) (fun _ hm f h => absurd h (hm f)) hrelease
    exact ⟨hint3, fun m hm => (hmoments m hm).1⟩

/-! ## A run -/

def symbolNamed (name : String) : Symbol := ⟨"CL-USER", name⟩

/-- `(block a (unwind-protect (block b (return-from a 1)) (block c 3)))` -/
def blockInCleanup : Form :=
  .block (symbolNamed "A")
    [.unwindProtect
      (.block (symbolNamed "B") [.returnFrom (symbolNamed "A") (some (.const (.number 1)))])
      [.block (symbolNamed "C") [.const (.number 3)]]]

/-- The thread has stopped at a breakpoint. -/
def stopped : Except Exit Value → Bool
  | .error .int3 => true
  | _ => false

theorem eq_int3_of_stopped {result : Except Exit Value} (h : stopped result) :
    result = .error .int3 := by
  unfold stopped at h
  split at h
  · rfl
  · cases h

/-- **The frame of the BLOCK B is in the pool and live** when the cleanup form takes a frame. -/
theorem run_blockInCleanup :
    ¬ ∀ specialVariable symbolValue n form,
      (run specialVariable symbolValue n form).1 ≠ .error .int3 ∧
        ∀ m ∈ (run specialVariable symbolValue n form).2.trace, m.control.Recycled := by
  intro h
  have hstopped : stopped (run (fun _ => false) (fun _ => none) 12 blockInCleanup).1 = true := by
    decide +kernel
  exact (h (fun _ => false) (fun _ => none) 12 blockInCleanup).1 (eq_int3_of_stopped hstopped)

end Xcl.Interpreter
