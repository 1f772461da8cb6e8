import Xcl.IR2.Semantics

/-!
# The control-flow passes preserve behaviour

Each pass maps the points of a vector to points of its result. The simulation relates a point with
its image; where the pass deletes a label or a jump, or sends a jump farther, one side makes a step
alone.

* **`passes_preserve`**: every pass yields a well-formed vector that behaves alike.
-/

namespace Xcl.IR2

open Behaviour (Matched sameBehaviour_of_matched)

-- The equations of these functions are made once, before the lemmas that use them.
section
attribute [local simp] Instruction.uses scan1
end

variable {σ : Type} {P code rest : Code}

/-- A pass does its work: the result is well formed and behaves like the vector. -/
structure Preserves (P P' : Code) : Prop where
  wellFormed : WellFormed P'
  equivalent : Equivalent P P'

theorem suffix_tail {i : Instruction} (h : i :: code <:+ P) : code <:+ P :=
  (List.suffix_cons i code).trans h

/-! ## Unreachable code -/

/-- What `optimize-ir2-1` leaves of the code from a point on. -/
def live (dead : Bool) (code : Code) : Code := (scan1 dead code).reduceOption

@[simp] theorem live_nil (dead : Bool) : live dead [] = [] := rfl

@[simp] theorem live_label (dead : Bool) (symbol : Label) (external : Bool) (code : Code) :
    live dead (.label symbol external :: code) = .label symbol external :: live false code := by
  simp [live, scan1]

@[simp] theorem live_exit (code : Code) : live false (.exit :: code) = .exit :: live true code := by
  simp [live, scan1]

@[simp] theorem live_jmp (short : Bool) (test : Test) (target : Label) (code : Code) :
    live false (.jmp short test target :: code) =
      .jmp short test target :: live (test == .t) code := by
  simp [live, scan1]

theorem live_straight {i : Instruction} (hi : i.straight = true) (code : Code) :
    live false (i :: code) = i :: live false code := by
  cases i <;> simp_all [Instruction.straight, live, scan1]

theorem live_true_of_none {i : Instruction} (hi : i.labelSymbol = none) (code : Code) :
    live true (i :: code) = live true code := by
  cases i <;> simp_all [Instruction.labelSymbol, live, scan1]

theorem live_false_of_none {i : Instruction} (hi : i.labelSymbol = none) (code : Code) :
    ∃ dead, live false (i :: code) = i :: live dead code := by
  rcases i.kinds with ⟨symbol, external, rfl⟩ | ⟨short, test, target, rfl⟩ | rfl | hi'
  · simp [Instruction.labelSymbol] at hi
  · exact ⟨_, live_jmp short test target code⟩
  · exact ⟨_, live_exit code⟩
  · exact ⟨_, live_straight hi' code⟩

theorem live_sublist (dead : Bool) (code : Code) : (live dead code).Sublist code := by
  induction code generalizing dead with
  | nil => simp
  | cons i code ih =>
    rcases i.label_or_none with ⟨symbol, external, rfl⟩ | hi
    · rw [live_label]
      exact (ih false).cons_cons _
    · cases dead with
      | true =>
        rw [live_true_of_none hi]
        exact (ih true).cons _
      | false =>
        obtain ⟨dead, h⟩ := live_false_of_none hi code
        rw [h]
        exact (ih dead).cons_cons _

theorem after_live (dead : Bool) (code : Code) (l : Label) :
    after (live dead code) l = (after code l).map (live false) := by
  induction code generalizing dead with
  | nil => rfl
  | cons i code ih =>
    rcases i.label_or_none with ⟨symbol, external, rfl⟩ | hi
    · rw [live_label, after_cons_label, after_cons_label]
      split_ifs
      · rfl
      · exact ih false
    · rw [after_cons_of_none hi]
      cases dead with
      | true =>
        rw [live_true_of_none hi]
        exact ih true
      | false =>
        obtain ⟨dead, h⟩ := live_false_of_none hi code
        rw [h, after_cons_of_none hi]
        exact ih dead

/-- The simulation of `optimize-ir2-1`: both sides move together. -/
theorem live_matched (hP : Linked P) (M : Machine σ) {k : ℕ} {c d : Code × σ}
    (h : c.1 <:+ P ∧ d = (live false c.1, c.2)) :
    Matched (step M P) (step M (live false P))
      (fun _ c d => c.1 <:+ P ∧ d = (live false c.1, c.2)) k c d := by
  obtain ⟨code, s⟩ := c
  obtain ⟨hs, rfl⟩ := h
  cases code with
  | nil => exact .halt rfl rfl
  | cons i code =>
    have hs' := suffix_tail hs
    rcases i.kinds with ⟨symbol, external, rfl⟩ | ⟨short, test, target, rfl⟩ | rfl | hi
    · exact .silent 0 rfl (by rw [live_label]; rfl) ⟨hs', rfl⟩
    · rw [live_jmp]
      cases htest : test.holds (M.flags s) with
      | true =>
        obtain ⟨rest, hrest⟩ := hP.exists_after hs
        have hrest' : after (live false P) target = some (live false rest) := by
          rw [after_live, hrest]
          rfl
        exact .silent 0 (step_jmp_taken htest hrest _) (step_jmp_taken htest hrest' _)
          ⟨isSuffix_of_after hrest, rfl⟩
      | false =>
        have hcond : (test == .t) = false := by
          cases test with
          | t => simp [Test.holds] at htest
          | cond c => rfl
        rw [hcond]
        exact .silent 0 (step_jmp_not_taken htest _) (step_jmp_not_taken htest _)
          ⟨hs', rfl⟩
    · exact .halt rfl (by rw [live_exit]; rfl)
    · rw [live_straight hi]
      exact .emit 0 (step_straight hi M P code s) (step_straight hi M _ _ s) ⟨hs', rfl⟩

theorem live_linked (hP : Linked P) : Linked (live false P) := by
  refine hP.sublist (live_sublist false P) fun {short test target} hmem => ?_
  obtain ⟨rest, hrest⟩ := exists_after (hP.defined ((live_sublist false P).subset hmem))
  have hrest' := after_live false P target
  rw [hrest] at hrest'
  exact mem_labels_of_after hrest'

/-- **`optimize-ir2-1` preserves behaviour.** -/
theorem optimizeIr2_1_preserves (hP : WellFormed P) : Preserves P (optimizeIr2_1 P).1 where
  wellFormed := hP.sublist (live_sublist false P) (live_linked hP.toLinked)
  equivalent _ M _ :=
    sameBehaviour_of_matched (fun _ _ _ h => live_matched hP.toLinked M h) (k := 0)
      ⟨List.suffix_rfl, rfl⟩

/-! ## Unused labels -/

/-- What `optimize-ir2-2` leaves of the code from a point on. -/
def withUsed (used : Label → Bool) (code : Code) : Code := (code.map (mark2 used)).reduceOption

variable {used : Label → Bool}

@[simp] theorem withUsed_nil : withUsed used [] = [] := rfl

theorem withUsed_label (symbol : Label) (external : Bool) (code : Code) :
    withUsed used (.label symbol external :: code) =
      if external || used symbol then .label symbol external :: withUsed used code
      else withUsed used code := by
  simp only [withUsed, List.map_cons, mark2]
  split_ifs <;> simp

theorem withUsed_of_none {i : Instruction} (hi : i.labelSymbol = none) (code : Code) :
    withUsed used (i :: code) = i :: withUsed used code := by
  cases i <;> simp_all [Instruction.labelSymbol, withUsed, mark2]

theorem withUsed_sublist (code : Code) : (withUsed used code).Sublist code := by
  induction code with
  | nil => simp
  | cons i code ih =>
    rcases i.label_or_none with ⟨symbol, external, rfl⟩ | hi
    · rw [withUsed_label]
      split_ifs
      · exact ih.cons_cons _
      · exact ih.cons _
    · rw [withUsed_of_none hi]
      exact ih.cons_cons _

theorem after_withUsed {l : Label} (hl : used l = true) (code : Code) :
    after (withUsed used code) l = (after code l).map (withUsed used) := by
  induction code with
  | nil => rfl
  | cons i code ih =>
    rcases i.label_or_none with ⟨symbol, external, rfl⟩ | hi
    · rw [withUsed_label, after_cons_label]
      by_cases hsym : symbol = l
      · subst hsym
        simp [hl]
      · rw [if_neg hsym]
        split_ifs
        · rw [after_cons_label, if_neg hsym]
          exact ih
        · exact ih
    · rw [withUsed_of_none hi, after_cons_of_none hi, after_cons_of_none hi]
      exact ih

/-- The simulation of `optimize-ir2-2`: the vector passes a deleted label alone. -/
theorem withUsed_matched (hP : Linked P)
    (hused : ∀ {short test target}, .jmp short test target ∈ P → used target = true)
    (M : Machine σ) {k : ℕ} {c d : Code × σ}
    (h : c.1 <:+ P ∧ d = (withUsed used c.1, c.2) ∧ k = c.1.length) :
    Matched (step M P) (step M (withUsed used P))
      (fun k c d => c.1 <:+ P ∧ d = (withUsed used c.1, c.2) ∧ k = c.1.length) k c d := by
  obtain ⟨code, s⟩ := c
  obtain ⟨hs, rfl, rfl⟩ := h
  cases code with
  | nil => exact .halt rfl rfl
  | cons i code =>
    have hs' := suffix_tail hs
    rcases i.kinds with ⟨symbol, external, rfl⟩ | ⟨short, test, target, rfl⟩ | rfl | hi
    · by_cases hkeep : (external || used symbol) = true
      · exact .silent _ rfl (by rw [withUsed_label, if_pos hkeep]; rfl) ⟨hs', rfl, rfl⟩
      · refine .left rfl (Nat.lt_succ_self code.length) ⟨hs', ?_, rfl⟩
        rw [withUsed_label, if_neg hkeep]
    · rw [withUsed_of_none rfl]
      cases htest : test.holds (M.flags s) with
      | true =>
        obtain ⟨rest, hrest⟩ := hP.exists_after hs
        have hrest' : after (withUsed used P) target = some (withUsed used rest) := by
          rw [after_withUsed (hused (hs.subset List.mem_cons_self)), hrest]
          rfl
        exact .silent _ (step_jmp_taken htest hrest _) (step_jmp_taken htest hrest' _)
          ⟨isSuffix_of_after hrest, rfl, rfl⟩
      | false =>
        exact .silent _ (step_jmp_not_taken htest _) (step_jmp_not_taken htest _)
          ⟨hs', rfl, rfl⟩
    · exact .halt rfl (by rw [withUsed_of_none rfl]; rfl)
    · rw [withUsed_of_none (labelSymbol_of_straight hi)]
      exact .emit _ (step_straight hi M P code s) (step_straight hi M _ _ s) ⟨hs', rfl, rfl⟩

/-- The labels that `optimize-ir2-2` finds used. -/
def usedIn (P : Code) (symbol : Label) : Bool := P.any (Instruction.uses symbol)

theorem usedIn_of_mem {short : Bool} {test : Test} {target : Label}
    (h : .jmp short test target ∈ P) : usedIn P target = true :=
  List.any_eq_true.mpr ⟨_, h, by simp [Instruction.uses]⟩

theorem withUsed_linked (hP : Linked P) : Linked (withUsed (usedIn P) P) := by
  refine hP.sublist (withUsed_sublist P) fun {short test target} hmem => ?_
  have hmem' := (withUsed_sublist P).subset hmem
  obtain ⟨rest, hrest⟩ := exists_after (hP.defined hmem')
  have hrest' := after_withUsed (usedIn_of_mem hmem') P
  rw [hrest] at hrest'
  exact mem_labels_of_after hrest'

/-- **`optimize-ir2-2` preserves behaviour.** -/
theorem optimizeIr2_2_preserves (hP : WellFormed P) : Preserves P (optimizeIr2_2 P).1 where
  wellFormed := hP.sublist (withUsed_sublist P) (withUsed_linked hP.toLinked)
  equivalent _ M _ :=
    sameBehaviour_of_matched
      (fun _ _ _ h => withUsed_matched hP.toLinked (fun h => usedIn_of_mem h) M h)
      ⟨List.suffix_rfl, rfl, rfl⟩

/-! ## Jumps to the next instruction -/

/-- What `optimize-ir2-4` leaves of the code from a point on. -/
def withoutNext : Code → Code
  | [] => []
  | i :: code => (scan4 i code).reduceOption

theorem scan4_cons (i j : Instruction) (code : Code) :
    scan4 i (j :: code) = some i :: scan4 j code ∨
      ∃ short symbol external, i = .jmp short .t symbol ∧ j = .label symbol external ∧
        scan4 i (j :: code) = none :: scan4 j code := by
  rw [scan4.eq_def]
  split
  · simp_all
  · rename_i short target symbol external code' heq
    cases heq
    by_cases htarget : target = symbol
    · exact .inr ⟨short, target, external, rfl, by rw [htarget], by rw [if_pos htarget]⟩
    · exact .inl (by rw [if_neg htarget])
  · rename_i heq
    cases heq
    exact .inl rfl

theorem withoutNext_cons (i : Instruction) (code : Code) :
    withoutNext (i :: code) = i :: withoutNext code ∨
      ∃ short symbol external rest, i = .jmp short .t symbol ∧
        code = .label symbol external :: rest ∧ withoutNext (i :: code) = withoutNext code := by
  cases code with
  | nil => exact .inl rfl
  | cons j code =>
    rcases scan4_cons i j code with h | ⟨short, symbol, external, hi, hj, h⟩
    · exact .inl (by simp [withoutNext, h])
    · exact .inr ⟨short, symbol, external, code, hi, by rw [hj], by simp [withoutNext, h]⟩

theorem withoutNext_of_ne {i : Instruction} (hi : ∀ short symbol, i ≠ .jmp short .t symbol)
    (code : Code) : withoutNext (i :: code) = i :: withoutNext code := by
  rcases withoutNext_cons i code with h | ⟨short, symbol, _, _, rfl, _⟩
  · exact h
  · exact absurd rfl (hi short symbol)

theorem withoutNext_sublist (code : Code) : (withoutNext code).Sublist code := by
  induction code with
  | nil => exact List.Sublist.refl _
  | cons i code ih =>
    rcases withoutNext_cons i code with h | ⟨_, _, _, _, _, _, h⟩
    · rw [h]
      exact ih.cons_cons _
    · rw [h]
      exact ih.cons _

theorem after_withoutNext (code : Code) (l : Label) :
    after (withoutNext code) l = (after code l).map withoutNext := by
  induction code with
  | nil => rfl
  | cons i code ih =>
    rcases withoutNext_cons i code with h | ⟨short, symbol, _, _, rfl, _, h⟩
    · rw [h]
      rcases i.label_or_none with ⟨symbol, external, rfl⟩ | hi
      · rw [after_cons_label, after_cons_label]
        split_ifs
        · rfl
        · exact ih
      · rw [after_cons_of_none hi, after_cons_of_none hi]
        exact ih
    · rw [h, after_cons_jmp]
      exact ih

/-- The simulation of `optimize-ir2-4`: a deleted jump is matched by the label it jumps to. -/
theorem withoutNext_matched (hP : Linked P) (M : Machine σ) {k : ℕ} {c d : Code × σ}
    (h : c.1 <:+ P ∧ d = (withoutNext c.1, c.2)) :
    Matched (step M P) (step M (withoutNext P))
      (fun _ c d => c.1 <:+ P ∧ d = (withoutNext c.1, c.2)) k c d := by
  obtain ⟨code, s⟩ := c
  obtain ⟨hs, rfl⟩ := h
  cases code with
  | nil => exact .halt rfl rfl
  | cons i code =>
    have hs' := suffix_tail hs
    rcases i.kinds with ⟨symbol, external, rfl⟩ | ⟨short, test, target, rfl⟩ | rfl | hi
    · exact .silent 0 rfl (by rw [withoutNext_of_ne (by simp)]; rfl) ⟨hs', rfl⟩
    · rcases withoutNext_cons (.jmp short test target) code with
        hkeep | ⟨_, symbol, external, rest, hjmp, rfl, hdrop⟩
      · rw [hkeep]
        cases htest : test.holds (M.flags s) with
        | true =>
          obtain ⟨rest, hrest⟩ := hP.exists_after hs
          have hrest' : after (withoutNext P) target = some (withoutNext rest) := by
            rw [after_withoutNext, hrest]
            rfl
          exact .silent 0 (step_jmp_taken htest hrest _) (step_jmp_taken htest hrest' _)
            ⟨isSuffix_of_after hrest, rfl⟩
        | false =>
          exact .silent 0 (step_jmp_not_taken htest _) (step_jmp_not_taken htest _) ⟨hs', rfl⟩
      · cases hjmp
        rw [hdrop, withoutNext_of_ne (by simp)]
        exact .silent 0 (step_jmp_taken rfl (after_eq_some hP.nodup hs') _) rfl
          ⟨suffix_tail hs', rfl⟩
    · exact .halt rfl (by rw [withoutNext_of_ne (by simp)]; rfl)
    · rw [withoutNext_of_ne (by rintro short symbol rfl; simp [Instruction.straight] at hi)]
      exact .emit 0 (step_straight hi M P code s) (step_straight hi M _ _ s) ⟨hs', rfl⟩

theorem optimizeIr2_4_eq (P : Code) : (optimizeIr2_4 P).1 = withoutNext P := by
  cases P <;> rfl

theorem withoutNext_linked (hP : Linked P) : Linked (withoutNext P) := by
  refine hP.sublist (withoutNext_sublist P) fun {short test target} hmem => ?_
  obtain ⟨rest, hrest⟩ := exists_after (hP.defined ((withoutNext_sublist P).subset hmem))
  have hrest' := after_withoutNext P target
  rw [hrest] at hrest'
  exact mem_labels_of_after hrest'

/-- **`optimize-ir2-4` preserves behaviour.** -/
theorem optimizeIr2_4_preserves (hP : WellFormed P) : Preserves P (optimizeIr2_4 P).1 := by
  rw [optimizeIr2_4_eq]
  exact ⟨hP.sublist (withoutNext_sublist P) (withoutNext_linked hP.toLinked), fun _ M _ =>
    sameBehaviour_of_matched (fun _ _ _ h => withoutNext_matched hP.toLinked M h) (k := 0)
      ⟨List.suffix_rfl, rfl⟩⟩

/-! ## A jump over a jump -/

/-- A conditional jump over an unconditional one. -/
def Overjump (code : Code) : Prop :=
  ∃ short₁ test symbol short₂ target external rest, code =
    .jmp short₁ (.cond test) symbol :: .jmp short₂ .t target :: .label symbol external :: rest

/-- The code `code'` is `code` with the conditional jumps over a jump replaced by the jump under the
negated condition. -/
inductive Inverted : Code → Code → Prop
  | nil : Inverted [] []
  | cons {i : Instruction} {code code' : Code} : ¬ Overjump (i :: code) → Inverted code code' →
    Inverted (i :: code) (i :: code')
  | invert {short₁ short₂ external : Bool} {test negated : Cond} {target symbol : Label}
      {code code' : Code} : negatedTest test = some negated → Inverted code code' →
    Inverted
      (.jmp short₁ (.cond test) symbol :: .jmp short₂ .t target :: .label symbol external :: code)
      (.jmp short₂ (.cond negated) target :: .label symbol external :: code')

theorem inverted_of_scan1c {i : Instruction} {marks : List (Option Instruction)}
    (h : scan1c i code = some marks) : Inverted (i :: code) marks.reduceOption := by
  fun_induction scan1c i code generalizing marks with
  | case1 i =>
    cases h
    exact .cons (by simp [Overjump]) .nil
  | case2 i j =>
    cases h
    exact .cons (by simp [Overjump]) (.cons (by simp [Overjump]) .nil)
  | case3 short₁ test short₂ target₂ symbol external code ih =>
    simp only [Option.bind_eq_bind, Option.bind_eq_some_iff, Option.pure_def,
      Option.some.injEq] at h
    obtain ⟨negated, hneg, marks', hmarks, rfl⟩ := h
    have hinv := ih negated hmarks
    rw [List.reduceOption_cons_of_none]
    generalize marks'.reduceOption = code' at hinv
    cases hinv with
    | cons _ hinv =>
      cases hinv with
      | cons _ hinv => exact .invert hneg hinv
  | case4 short₁ test target₁ short₂ target₂ symbol external code hne ih =>
    simp only [Option.bind_eq_bind, Option.bind_eq_some_iff, Option.pure_def,
      Option.some.injEq] at h
    obtain ⟨marks', hmarks, rfl⟩ := h
    refine .cons ?_ (ih hmarks)
    rintro ⟨_, _, _, _, _, _, _, heq⟩
    cases heq
    exact hne rfl
  | case5 i j k code hno ih =>
    simp only [Option.bind_eq_bind, Option.bind_eq_some_iff, Option.pure_def,
      Option.some.injEq] at h
    obtain ⟨marks', hmarks, rfl⟩ := h
    refine .cons ?_ (ih hmarks)
    rintro ⟨short₁, test, symbol, short₂, target, external, rest, heq⟩
    cases heq
    exact hno short₁ test symbol short₂ target symbol external rfl rfl rfl

theorem scan1c_isSome {i : Instruction}
    (h : ∀ {short test target}, .jmp short (.cond test) target ∈ i :: code →
      (negatedTest test).isSome) : ∃ marks, scan1c i code = some marks := by
  fun_induction scan1c i code with
  | case1 i => exact ⟨_, rfl⟩
  | case2 i j => exact ⟨_, rfl⟩
  | case3 short₁ test short₂ target₂ symbol external code ih =>
    obtain ⟨negated, hneg⟩ := Option.isSome_iff_exists.mp (h List.mem_cons_self)
    obtain ⟨marks, hmarks⟩ := ih negated fun {short test' target} hmem => by
      rcases List.mem_cons.mp hmem with heq | hmem
      · cases heq
        exact negatedTest_isSome hneg
      · exact h (List.mem_cons_of_mem _ (List.mem_cons_of_mem _ hmem))
    exact ⟨none :: marks, by simp [hneg, hmarks]⟩
  | case4 short₁ test target₁ short₂ target₂ symbol external code hne ih =>
    obtain ⟨marks, hmarks⟩ := ih fun hmem => h (List.mem_cons_of_mem _ hmem)
    exact ⟨_, by simp [hmarks]; rfl⟩
  | case5 i j k code hno ih =>
    obtain ⟨marks, hmarks⟩ := ih fun hmem => h (List.mem_cons_of_mem _ hmem)
    exact ⟨_, by simp [hmarks]; rfl⟩

theorem Inverted.labels {code code' : Code} (h : Inverted code code') :
    labels code' = labels code := by
  induction h with
  | nil => rfl
  | @cons i _ _ _ _ ih =>
    rcases i.label_or_none with ⟨symbol, external, rfl⟩ | hi
    · rw [labels_cons_label, labels_cons_label, ih]
    · rw [labels_cons_of_none hi, labels_cons_of_none hi, ih]
  | invert _ _ ih => simp [ih]

theorem Inverted.after {code code' : Code} (h : Inverted code code') {l : Label}
    (hl : after code l = some rest) :
    ∃ rest', IR2.after code' l = some rest' ∧ Inverted rest rest' := by
  induction h with
  | nil => simp [IR2.after] at hl
  | @cons i _ _ _ h ih =>
    rcases i.label_or_none with ⟨symbol, external, rfl⟩ | hi
    · rw [after_cons_label] at hl ⊢
      split_ifs at hl ⊢ with hsym
      · cases hl
        exact ⟨_, rfl, h⟩
      · exact ih hl
    · rw [after_cons_of_none hi] at hl ⊢
      exact ih hl
  | invert _ h ih =>
    rw [after_cons_jmp, after_cons_jmp, after_cons_label] at hl
    rw [after_cons_jmp, after_cons_label]
    split_ifs at hl ⊢ with hsym
    · cases hl
      exact ⟨_, rfl, h⟩
    · exact ih hl

theorem Inverted.mem_jmp {code code' : Code} (h : Inverted code code') {short : Bool} {test : Test}
    {target : Label} (hmem : .jmp short test target ∈ code') :
    .jmp short test target ∈ code ∨
      (∃ c, test = .cond c ∧ (negatedTest c).isSome) ∧ .jmp short .t target ∈ code := by
  induction h with
  | nil => simp at hmem
  | cons _ _ ih =>
    rcases List.mem_cons.mp hmem with rfl | hmem
    · exact .inl List.mem_cons_self
    · rcases ih hmem with h | ⟨h₁, h₂⟩
      · exact .inl (List.mem_cons_of_mem _ h)
      · exact .inr ⟨h₁, List.mem_cons_of_mem _ h₂⟩
  | invert hneg _ ih =>
    rcases List.mem_cons.mp hmem with heq | hmem
    · cases heq
      exact .inr ⟨⟨_, rfl, negatedTest_isSome hneg⟩, by simp⟩
    · rcases List.mem_cons.mp hmem with heq | hmem
      · cases heq
      · rcases ih hmem with h | ⟨h₁, h₂⟩
        · exact .inl (by simp [h])
        · exact .inr ⟨h₁, by simp [h₂]⟩

theorem Inverted.mem_of_straight {code code' : Code} (h : Inverted code code') {i : Instruction}
    (hi : i.straight = true) (hmem : i ∈ code') : i ∈ code := by
  induction h with
  | nil => simp at hmem
  | cons _ _ ih =>
    rcases List.mem_cons.mp hmem with rfl | hmem
    · exact List.mem_cons_self
    · exact List.mem_cons_of_mem _ (ih hmem)
  | invert _ _ ih =>
    rcases List.mem_cons.mp hmem with rfl | hmem
    · simp [Instruction.straight] at hi
    · rcases List.mem_cons.mp hmem with rfl | hmem
      · simp [Instruction.straight] at hi
      · simp [ih hmem]

theorem Inverted.linked {P' : Code} (h : Inverted P P') (hP : Linked P) : Linked P' where
  nodup := by
    rw [h.labels]
    exact hP.nodup
  defined hmem := by
    rw [h.labels]
    rcases h.mem_jmp hmem with h' | ⟨-, h'⟩
    · exact hP.defined h'
    · exact hP.defined h'

/-- The points that correspond in `optimize-ir2-1c`: the same instruction, a label that the result
still has to pass, or a jump that the vector still has to make. -/
inductive InvertedAt (P : Code) : ℕ → Code × σ → Code × σ → Prop
  | same {code code' : Code} {s : σ} : code <:+ P → Inverted code code' →
    InvertedAt P 0 (code, s) (code', s)
  | label {code code' : Code} {s : σ} {symbol : Label} {external : Bool} :
    code <:+ P → Inverted code code' →
    InvertedAt P 1 (code, s) (.label symbol external :: code', s)
  | jump {code rest rest' : Code} {s : σ} {short : Bool} {target : Label} :
    after P target = some rest → Inverted rest rest' →
    InvertedAt P 1 (.jmp short .t target :: code, s) (rest', s)

theorem invertedAt_matched (hP : Linked P) {P' : Code} (hinv : Inverted P P') (M : Machine σ)
    {k : ℕ} {c d : Code × σ} (h : InvertedAt P k c d) :
    Matched (step M P) (step M P') (InvertedAt P) k c d := by
  cases h with
  | label hs hcode => exact .right rfl Nat.zero_lt_one (.same hs hcode)
  | jump hrest hcode =>
    exact .left (step_jmp_taken rfl hrest _) Nat.zero_lt_one
      (.same (isSuffix_of_after hrest) hcode)
  | same hs hcode =>
    rename_i code code' s
    cases hcode with
    | nil => exact .halt rfl rfl
    | @cons i _ _ _ hcode =>
      have hs' := suffix_tail hs
      rcases i.kinds with ⟨symbol, external, rfl⟩ | ⟨short, test, target, rfl⟩ | rfl | hi
      · exact .silent 0 rfl rfl (.same hs' hcode)
      · cases htest : test.holds (M.flags s) with
        | true =>
          obtain ⟨rest, hrest⟩ := hP.exists_after hs
          obtain ⟨rest', hrest', hr⟩ := hinv.after hrest
          exact .silent 0 (step_jmp_taken htest hrest _) (step_jmp_taken htest hrest' _)
            (.same (isSuffix_of_after hrest) hr)
        | false =>
          exact .silent 0 (step_jmp_not_taken htest _) (step_jmp_not_taken htest _)
            (.same hs' hcode)
      · exact .halt rfl rfl
      · exact .emit 0 (step_straight hi M P _ s) (step_straight hi M _ _ s) (.same hs' hcode)
    | invert hneg hcode =>
      rename_i short₁ short₂ external test negated target symbol code code'
      have hs₁ := suffix_tail hs
      have hs₂ := suffix_tail hs₁
      have hholds : (Test.cond negated).holds (M.flags s) = !(Test.cond test).holds (M.flags s) :=
        holds_negatedTest hneg (M.flags s)
      cases htest : (Test.cond test).holds (M.flags s) with
      | true =>
        rw [htest] at hholds
        exact .silent 1 (step_jmp_taken htest (after_eq_some hP.nodup hs₂) _)
          (step_jmp_not_taken hholds _) (.label (suffix_tail hs₂) hcode)
      | false =>
        rw [htest] at hholds
        obtain ⟨rest, hrest⟩ := hP.exists_after hs₁
        obtain ⟨rest', hrest', hr⟩ := hinv.after hrest
        exact .silent 1 (step_jmp_not_taken htest _) (step_jmp_taken hholds hrest' _)
          (.jump hrest hr)

/-- **`optimize-ir2-1c` preserves behaviour.** -/
theorem optimizeIr2_1c_preserves (hP : WellFormed P) :
    ∃ P' changed, optimizeIr2_1c P = some (P', changed) ∧ Preserves P P' := by
  obtain ⟨P', changed, hresult, hinv⟩ :
      ∃ P' changed, optimizeIr2_1c P = some (P', changed) ∧ Inverted P P' := by
    cases P with
    | nil => exact ⟨[], false, rfl, .nil⟩
    | cons i code =>
      obtain ⟨marks, hmarks⟩ := scan1c_isSome hP.supported
      exact ⟨(finish marks).1, (finish marks).2, by rw [optimizeIr2_1c, hmarks]; rfl,
        inverted_of_scan1c hmarks⟩
  refine ⟨P', changed, hresult, ⟨hinv.linked hP.toLinked, ?_, ?_⟩, fun σ M s => ?_⟩
  · intro short test target hmem
    rcases hinv.mem_jmp hmem with h | ⟨⟨c, hc, hsome⟩, -⟩
    · exact hP.supported h
    · cases hc
      exact hsome
  · exact fun symbol hmem => hP.noLabelCalls symbol (hinv.mem_of_straight rfl hmem)
  · exact sameBehaviour_of_matched (fun _ _ _ h => invertedAt_matched hP.toLinked hinv M h)
      (.same List.suffix_rfl hinv)

end Xcl.IR2
