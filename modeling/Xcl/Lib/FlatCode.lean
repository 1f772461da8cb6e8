import Mathlib.Tactic

/-!
# Flat code with labels

The code of an assembler: instructions and labels in one list. A jump goes to the first place where
its label stands in the program; a jump to a label that stands nowhere in it leaves the program.

* `Item`, `Effect`, `Exit`: code, what an instruction does, and how control leaves;
* `after`, `run`: execution with a bound on the number of steps.
-/

namespace Xcl.FlatCode

universe u v w

inductive Item (I : Type u) (L : Type v)
  | instr (i : I)
  | label (l : L)
  deriving DecidableEq

/-- What an instruction does. -/
inductive Effect (L : Type v) (S : Type w)
  | next (s : S)
  | jump (l : L) (s : S)
  | stop (s : S)

/-- How control leaves a program. -/
inductive Exit (L : Type v) (S : Type w)
  | fell (s : S)
  | left (l : L) (s : S)
  | stopped (s : S)

variable {I : Type u} {L : Type v} {S : Type w} [DecidableEq L]

def after (l : L) : List (Item I L) → Option (List (Item I L))
  | [] => none
  | .label l' :: code => if l' = l then some code else after l code
  | .instr _ :: code => after l code

section
attribute [local simp] after
end

theorem after_eq_none_iff {l : L} {code : List (Item I L)} :
    after l code = none ↔ Item.label l ∉ code := by
  induction code with
  | nil => simp [after]
  | cons item code ih =>
    cases item with
    | instr i => simp [after, ih]
    | label l' =>
      by_cases h : l' = l
      · simp [after, h]
      · have h' : l ≠ l' := fun he => h he.symm
        simp [after, h, h', ih]

theorem after_append_of_none {l : L} {code : List (Item I L)} (h : after l code = none)
    (code' : List (Item I L)) : after l (code ++ code') = after l code' := by
  induction code with
  | nil => rfl
  | cons item code ih =>
    cases item with
    | instr i => exact ih h
    | label l' =>
      by_cases hl : l' = l
      · simp [after, hl] at h
      · simp only [after, hl, if_false, List.cons_append] at h ⊢
        exact ih h

/-- Execution of the code `code` of a program, with a bound on the number of steps. An instruction
without an effect stops the execution with no result. -/
def run (exec : I → S → Option (Effect L S)) (program : List (Item I L)) :
    ℕ → List (Item I L) → S → Option (Exit L S)
  | 0, _, _ => none
  | _ + 1, [], s => some (.fell s)
  | n + 1, .label _ :: code, s => run exec program n code s
  | n + 1, .instr i :: code, s =>
    match exec i s with
    | some (.next s) => run exec program n code s
    | some (.jump l s) =>
      match after l program with
      | some code => run exec program n code s
      | none => some (.left l s)
    | some (.stop s) => some (.stopped s)
    | none => none

section
attribute [local simp] run
end

/-- The execution ends and leaves the program at `e`. -/
def Runs (exec : I → S → Option (Effect L S)) (program code : List (Item I L)) (s : S)
    (e : Exit L S) : Prop :=
  ∃ n, run exec program n code s = some e

variable {exec : I → S → Option (Effect L S)} {program code : List (Item I L)} {s s' : S}
  {e : Exit L S}

theorem runs_label {l : L} (h : Runs exec program code s e) :
    Runs exec program (.label l :: code) s e := by
  obtain ⟨n, hn⟩ := h
  exact ⟨n + 1, hn⟩

theorem runs_next {i : I} (hi : exec i s = some (.next s'))
    (h : Runs exec program code s' e) : Runs exec program (.instr i :: code) s e := by
  obtain ⟨n, hn⟩ := h
  refine ⟨n + 1, ?_⟩
  rw [run, hi]
  exact hn

theorem runs_jump {i : I} {l : L} {target : List (Item I L)}
    (hi : exec i s = some (.jump l s')) (hl : after l program = some target)
    (h : Runs exec program target s' e) : Runs exec program (.instr i :: code) s e := by
  obtain ⟨n, hn⟩ := h
  refine ⟨n + 1, ?_⟩
  simp only [run, hi, hl]
  exact hn

theorem runs_leave {i : I} {l : L} (hi : exec i s = some (.jump l s'))
    (hl : after l program = none) : Runs exec program (.instr i :: code) s (.left l s') := by
  refine ⟨1, ?_⟩
  simp only [run, hi, hl]

theorem runs_stop {i : I} (hi : exec i s = some (.stop s')) :
    Runs exec program (.instr i :: code) s (.stopped s') := by
  refine ⟨1, ?_⟩
  rw [run, hi]

theorem run_mono {n m : ℕ} (hnm : n ≤ m) (h : run exec program n code s = some e) :
    run exec program m code s = some e := by
  induction n generalizing m code s with
  | zero => cases h
  | succ n ih =>
    obtain ⟨m, rfl⟩ : ∃ k, m = k + 1 := ⟨m - 1, by omega⟩
    have hle : n ≤ m := Nat.le_of_succ_le_succ hnm
    cases code with
    | nil => exact h
    | cons item code =>
      cases item with
      | label l =>
        rw [run] at h ⊢
        exact ih hle h
      | instr i =>
        rw [run] at h ⊢
        split at h
        · exact ih hle h
        · split at h
          · exact ih hle h
          · exact h
        · exact h
        · cases h

theorem Runs.unique {e' : Exit L S} (h : Runs exec program code s e)
    (h' : Runs exec program code s e') : e = e' := by
  obtain ⟨n, hn⟩ := h
  obtain ⟨m, hm⟩ := h'
  have hn := run_mono (le_max_left n m) hn
  have hm := run_mono (le_max_right n m) hm
  exact Option.some.inj (hn.symm.trans hm)

end Xcl.FlatCode
