import Xcl.Lib.Behaviour
import Xcl.IR2.Model

/-!
# The meaning of IR2 code

Jumps, labels and exits are executed; every other instruction is a transformer of the machine state
that is seen as an event. A program point is the list of the instructions from there on.

* `labels`, `after`: the labels of a vector and the point behind a label;
* `Linked`, `WellFormed`: labels are defined once and jumps have targets; their tests can be
  negated.
-/

namespace Xcl.IR2

open Behaviour (Step SameBehaviour)

def Instruction.labelSymbol : Instruction → Option Label
  | .label symbol _ => some symbol
  | _ => none

/-- The labels of a vector. -/
def labels (code : Code) : List Label := code.filterMap Instruction.labelSymbol

/-- The point behind a label. -/
def after : Code → Label → Option Code
  | [], _ => none
  | .label symbol _ :: code, l => if symbol = l then some code else after code l
  | _ :: code, l => after code l

def Instruction.straight : Instruction → Bool
  | .label _ _ => false
  | .jmp _ _ _ => false
  | .exit => false
  | _ => true

structure Linked (code : Code) : Prop where
  nodup : (labels code).Nodup
  defined : ∀ {short test target}, .jmp short test target ∈ code → target ∈ labels code

structure WellFormed (code : Code) : Prop extends Linked code where
  supported : ∀ {short test target}, .jmp short (.cond test) target ∈ code →
    (negatedTest test).isSome
  noLabelCalls : ∀ symbol, .call (.label symbol) ∉ code

structure Machine (σ : Type) where
  eval : Instruction → σ → σ
  flags : σ → Flags

/-- How a run ends: at an exit, behind the last instruction, or at a jump without a target. -/
inductive Outcome (σ : Type)
  | exit (s : σ)
  | fellOff (s : σ)
  | undefinedLabel (l : Label) (s : σ)

variable {σ : Type}

/-- One step of the vector `P`. -/
def step (M : Machine σ) (P : Code) : Code × σ → Step Instruction (Code × σ) (Outcome σ)
  | ([], s) => .halt (.fellOff s)
  | (.label _ _ :: code, s) => .silent (code, s)
  | (.jmp _ test target :: code, s) =>
    if test.holds (M.flags s) then
      match after P target with
      | some code' => .silent (code', s)
      | none => .halt (.undefinedLabel target s)
    else .silent (code, s)
  | (.exit :: _, s) => .halt (.exit s)
  | (i :: code, s) => .emit i (code, M.eval i s)

/-- The vectors `P` and `P'` behave alike from the entry point on. -/
def Equivalent (P P' : Code) : Prop :=
  ∀ (σ : Type) (M : Machine σ) (s : σ), SameBehaviour (step M P) (step M P') (P, s) (P', s)

/-! ## Instructions -/

theorem Instruction.kinds (i : Instruction) : (∃ symbol external, i = .label symbol external) ∨
    (∃ short test target, i = .jmp short test target) ∨ i = .exit ∨ i.straight = true := by
  cases i <;> simp [Instruction.straight]

theorem Instruction.label_or_none (i : Instruction) :
    (∃ symbol external, i = .label symbol external) ∨ i.labelSymbol = none := by
  cases i <;> simp [Instruction.labelSymbol]

theorem step_straight {i : Instruction} (hi : i.straight = true) (M : Machine σ) (P code : Code)
    (s : σ) : step M P (i :: code, s) = .emit i (code, M.eval i s) := by
  cases i <;> simp_all [Instruction.straight, step]

theorem step_jmp_taken {M : Machine σ} {P rest : Code} {short : Bool} {test : Test}
    {target : Label} {s : σ} (htest : test.holds (M.flags s) = true)
    (hafter : after P target = some rest) (code : Code) :
    step M P (.jmp short test target :: code, s) = .silent (rest, s) := by
  simp [step, htest, hafter]

theorem step_jmp_not_taken {M : Machine σ} {P : Code} {short : Bool} {test : Test}
    {target : Label} {s : σ} (htest : test.holds (M.flags s) = false) (code : Code) :
    step M P (.jmp short test target :: code, s) = .silent (code, s) := by
  simp [step, htest]

/-! ## Labels -/

@[simp] theorem labels_nil : labels [] = [] := rfl

@[simp] theorem labels_cons_label (symbol : Label) (external : Bool) (code : Code) :
    labels (.label symbol external :: code) = symbol :: labels code := rfl

theorem labels_cons_of_none {i : Instruction} (hi : i.labelSymbol = none) (code : Code) :
    labels (i :: code) = labels code := by
  simp [labels, hi]

theorem labelSymbol_of_straight {i : Instruction} (hi : i.straight = true) :
    i.labelSymbol = none := by
  cases i <;> simp_all [Instruction.straight, Instruction.labelSymbol]

@[simp] theorem after_cons_label (symbol l : Label) (external : Bool) (code : Code) :
    after (.label symbol external :: code) l = if symbol = l then some code else after code l :=
  rfl

theorem after_cons_of_none {i : Instruction} (hi : i.labelSymbol = none) (code : Code)
    (l : Label) : after (i :: code) l = after code l := by
  cases i <;> simp_all [Instruction.labelSymbol, after]

@[simp] theorem after_cons_jmp (short : Bool) (test : Test) (target l : Label) (code : Code) :
    after (.jmp short test target :: code) l = after code l := rfl

@[simp] theorem after_cons_exit (l : Label) (code : Code) :
    after (.exit :: code) l = after code l := rfl

@[simp] theorem labels_cons_jmp (short : Bool) (test : Test) (target : Label) (code : Code) :
    labels (.jmp short test target :: code) = labels code := rfl

theorem mem_labels {code : Code} {l : Label} :
    l ∈ labels code ↔ ∃ external, .label l external ∈ code := by
  unfold labels
  rw [List.mem_filterMap]
  constructor
  · rintro ⟨i, hi, hl⟩
    cases i <;> simp only [Instruction.labelSymbol, Option.some.injEq, reduceCtorEq] at hl
    subst hl
    exact ⟨_, hi⟩
  · rintro ⟨external, h⟩
    exact ⟨_, h, rfl⟩

theorem suffix_of_after {code rest : Code} {l : Label} (h : after code l = some rest) :
    ∃ external, .label l external :: rest <:+ code := by
  induction code with
  | nil => simp [after] at h
  | cons i code ih =>
    rcases i.label_or_none with ⟨symbol, external, rfl⟩ | hi
    · rw [after_cons_label] at h
      split_ifs at h with hl
      · subst hl
        cases h
        exact ⟨external, List.suffix_rfl⟩
      · obtain ⟨external', hs⟩ := ih h
        exact ⟨external', hs.trans (List.suffix_cons _ _)⟩
    · rw [after_cons_of_none hi] at h
      obtain ⟨external, hs⟩ := ih h
      exact ⟨external, hs.trans (List.suffix_cons _ _)⟩

theorem isSuffix_of_after {code rest : Code} {l : Label} (h : after code l = some rest) :
    rest <:+ code := by
  obtain ⟨external, hs⟩ := suffix_of_after h
  exact (List.suffix_cons _ _).trans hs

theorem exists_after {code : Code} {l : Label} (h : l ∈ labels code) :
    ∃ rest, after code l = some rest := by
  induction code with
  | nil => simp at h
  | cons i code ih =>
    rcases i.label_or_none with ⟨symbol, external, rfl⟩ | hi
    · rw [after_cons_label]
      split_ifs with hl
      · exact ⟨code, rfl⟩
      · rw [labels_cons_label, List.mem_cons] at h
        exact ih (h.resolve_left (Ne.symm hl))
    · rw [after_cons_of_none hi]
      rw [labels_cons_of_none hi] at h
      exact ih h

theorem mem_labels_of_after {code rest : Code} {l : Label} (h : after code l = some rest) :
    l ∈ labels code := by
  obtain ⟨external, hs⟩ := suffix_of_after h
  exact mem_labels.mpr ⟨external, hs.subset List.mem_cons_self⟩

/-- **A label that is defined once** is found at its definition. -/
theorem after_eq_some {P rest : Code} {l : Label} {external : Bool} (hnodup : (labels P).Nodup)
    (h : .label l external :: rest <:+ P) : after P l = some rest := by
  induction P with
  | nil => simp at h
  | cons i P ih =>
    rcases List.suffix_cons_iff.mp h with heq | hs
    · cases heq
      simp
    · rcases i.label_or_none with ⟨symbol, external', rfl⟩ | hi
      · rw [labels_cons_label, List.nodup_cons] at hnodup
        have hmem : l ∈ labels P := mem_labels.mpr ⟨external, hs.subset List.mem_cons_self⟩
        rw [after_cons_label, if_neg (by rintro rfl; exact hnodup.1 hmem)]
        exact ih hnodup.2 hs
      · rw [after_cons_of_none hi]
        rw [labels_cons_of_none hi] at hnodup
        exact ih hnodup hs

theorem Linked.exists_after {P code : Code} (hP : Linked P) {short : Bool} {test : Test}
    {target : Label} (h : .jmp short test target :: code <:+ P) :
    ∃ rest, after P target = some rest :=
  IR2.exists_after (hP.defined (h.subset List.mem_cons_self))

theorem Linked.sublist {P P' : Code} (hP : Linked P) (h : P'.Sublist P)
    (hdefined : ∀ {short test target}, .jmp short test target ∈ P' → target ∈ labels P') :
    Linked P' where
  nodup := hP.nodup.sublist (h.filterMap _)
  defined := hdefined

theorem WellFormed.sublist {P P' : Code} (hP : WellFormed P) (h : P'.Sublist P)
    (hlinked : Linked P') : WellFormed P' where
  toLinked := hlinked
  supported hmem := hP.supported (h.subset hmem)
  noLabelCalls symbol hmem := hP.noLabelCalls symbol (h.subset hmem)

end Xcl.IR2
