import Xcl.IR2.Terminate
import Xcl.X86.Machine

/-!
# Merging shifts

`optimize-ir2-5` puts one left shift in the place of a right shift and a left shift by more. The
right shift would have cleared low bits that the one shift keeps.

* `shiftCount`, `exec`, `run`: what straight-line code does to the registers;
* **`merged_iff`**: the pass merges a pair wherever it stands, and the value is the same exactly
  when the bits that the right shift drops are zero.
-/

namespace Xcl.IR2

open X86 (Reg64 Word)

/-! ## Straight-line code -/

/-- The processor uses the low six bits of a shift count. -/
def shiftCount (n : ℤ) : ℕ := (n % 64).toNat

abbrev Registers := Reg64 → Word

/-- One straight-line instruction; `other` is what the instructions do that are no shifts of a
64-bit register by a constant. -/
def exec (other : Instruction → Registers → Registers) : Instruction → Registers → Registers
  | .sar (.fixnum shift) (.reg64 reg), regs =>
    Function.update regs reg ((regs reg).sshiftRight (shiftCount shift))
  | .shl (.fixnum shift) (.reg64 reg), regs =>
    Function.update regs reg (regs reg <<< shiftCount shift)
  | i, regs => other i regs

def run (other : Instruction → Registers → Registers) (code : Code) (regs : Registers) :
    Registers :=
  code.foldl (fun regs i => exec other i regs) regs

/-! ## One pair of shifts -/

theorem mod_eq_zero_iff (w : Word) (m : ℕ) :
    w.toNat % 2 ^ m = 0 ↔ ∀ j < m, w.getLsbD j = false := by
  constructor
  · intro h j hj
    have hbit : (w.toNat % 2 ^ m).testBit j = w.toNat.testBit j := by
      rw [Nat.testBit_mod_two_pow, decide_eq_true hj, Bool.true_and]
    rw [BitVec.getLsbD, ← hbit, h, Nat.zero_testBit]
  · intro h
    apply Nat.eq_of_testBit_eq
    intro j
    rw [Nat.zero_testBit, Nat.testBit_mod_two_pow]
    by_cases hj : j < m
    · rw [← BitVec.getLsbD, h j hj, Bool.and_false]
    · rw [decide_eq_false hj, Bool.false_and]

/-- Bit `j` of the word comes to the same place, except that the right shift drops the bits below
`m`. -/
theorem getLsbD_shifts {m n : ℕ} (hmn : m < n) (w : Word) (i : ℕ) (hi : i < 64) :
    ((w.sshiftRight m) <<< n).getLsbD i = (decide (n ≤ i) && w.getLsbD (i - (n - m))) := by
  rw [BitVec.getLsbD_shiftLeft, BitVec.getLsbD_sshiftRight]
  by_cases h : n ≤ i
  · have hindex : m + (i - n) = i - (n - m) := by omega
    simp only [hi, h, decide_true, Bool.true_and, not_lt.mpr h, decide_false, Bool.not_false,
      not_le.mpr (show i - n < 64 by omega), hindex, show i - (n - m) < 64 by omega, if_true]
  · simp [h, not_le.mp h]

/-- **The two shifts and the one leave the same word** exactly when the dropped bits are zero. -/
theorem merge_iff {m n : ℕ} (hmn : m < n) (hn : n < 64) (w : Word) :
    w <<< (n - m) = (w.sshiftRight m) <<< n ↔ w.toNat % 2 ^ m = 0 := by
  rw [mod_eq_zero_iff]
  constructor
  · intro h j hj
    have hbit := congrArg (fun v : Word => v.getLsbD (j + (n - m))) h
    simp only [getLsbD_shifts hmn w _ (show j + (n - m) < 64 by omega),
      BitVec.getLsbD_shiftLeft] at hbit
    simpa [show j + (n - m) < 64 by omega, show ¬n ≤ j + (n - m) by omega] using hbit
  · intro h
    apply BitVec.eq_of_getLsbD_eq
    intro i hi
    rw [getLsbD_shifts hmn w i hi, BitVec.getLsbD_shiftLeft]
    by_cases hlow : i < n - m
    · simp [hlow, show ¬n ≤ i by omega]
    · by_cases hhigh : n ≤ i
      · simp [hi, hlow, hhigh]
      · simp [hlow, hhigh, h (i - (n - m)) (by omega)]

/-! ## The pass -/

variable {other : Instruction → Registers → Registers}

theorem shiftCount_eq {n : ℤ} (h₀ : 0 < n) (h₁ : n < 64) : shiftCount n = n.toNat := by
  unfold shiftCount
  rw [Int.emod_eq_of_lt h₀.le h₁]

theorem exec_shifts_iff {m n : ℤ} (hm : 0 < m) (hmn : m < n) (hn : n < 64) (reg : Reg64)
    (regs : Registers) :
    exec other (.shl (.fixnum (n - m)) (.reg64 reg)) regs =
        exec other (.shl (.fixnum n) (.reg64 reg))
          (exec other (.sar (.fixnum m) (.reg64 reg)) regs) ↔
      (regs reg).toNat % 2 ^ m.toNat = 0 := by
  simp only [exec, Function.update_self, Function.update_idem]
  rw [shiftCount_eq hm (by omega), shiftCount_eq (by omega) hn,
    shiftCount_eq (by omega) (by omega : n - m < 64),
    show (n - m).toNat = n.toNat - m.toNat by omega,
    ← merge_iff (m := m.toNat) (n := n.toNat) (by omega) (by omega)]
  constructor
  · intro h
    simpa using congrFun h reg
  · intro h
    rw [h]

theorem scan5_append (i : Instruction) (before : Code) (operand₁ operand₂ : Operand)
    (code : Code) : ∃ marks,
      scan5 i (before ++ .sar operand₁ operand₂ :: code) =
        marks ++ scan5 (.sar operand₁ operand₂) code := by
  induction before generalizing i with
  | nil =>
    refine ⟨[some i], ?_⟩
    rw [List.nil_append, scan5]
    · rfl
    · simp
  | cons j before ih =>
    rw [List.cons_append]
    by_cases hi : ∃ shift₁ reg₁ shift₂ reg₂, i = .sar (.fixnum shift₁) reg₁ ∧
        j = .shl (.fixnum shift₂) reg₂
    · obtain ⟨shift₁, reg₁, shift₂, reg₂, rfl, rfl⟩ := hi
      rw [scan5]
      split_ifs
      · obtain ⟨marks, hmarks⟩ := ih (.shl (.fixnum (shift₂ - shift₁)) reg₁)
        exact ⟨none :: marks, by rw [hmarks]; rfl⟩
      · obtain ⟨marks, hmarks⟩ := ih (.shl (.fixnum shift₂) reg₂)
        exact ⟨some _ :: marks, by rw [hmarks]; rfl⟩
    · obtain ⟨marks, hmarks⟩ := ih j
      refine ⟨some i :: marks, ?_⟩
      rw [scan5, hmarks]
      · rfl
      · rintro shift₁ reg₁ shift₂ reg₂ rfl rfl
        exact hi ⟨shift₁, reg₁, shift₂, reg₂, rfl, rfl⟩

theorem optimizeIr2_5_merges {m n : ℤ} (hmn : m < n) (reg : Operand) (before behind : Code) :
    ∃ before',
      (optimizeIr2_5 (before ++ .sar (.fixnum m) reg :: .shl (.fixnum n) reg :: behind)).1 =
      before' ++ .shl (.fixnum (n - m)) reg :: withShifts behind := by
  have hpair : (scan5 (.sar (.fixnum m) reg) (.shl (.fixnum n) reg :: behind)).reduceOption =
      .shl (.fixnum (n - m)) reg :: withShifts behind := by
    rw [scan5, if_pos ⟨rfl, hmn⟩, List.reduceOption_cons_of_none]
    exact withShifts_of_ne (by simp) behind
  rw [optimizeIr2_5_eq]
  cases before with
  | nil => exact ⟨[], hpair⟩
  | cons i before =>
    obtain ⟨marks, hmarks⟩ :=
      scan5_append i before (.fixnum m) reg (.shl (.fixnum n) reg :: behind)
    refine ⟨marks.reduceOption, ?_⟩
    show (scan5 i (before ++ _)).reduceOption = _
    rw [hmarks, List.reduceOption_append, hpair]

/-- **A pair of shifts is merged wherever it stands, and the shift that replaces it leaves the same
value** exactly when the bits that the right shift drops are zero. -/
theorem merged_iff {m n : ℤ} (hm : 0 < m) (hmn : m < n) (hn : n < 64) (reg : Reg64)
    (before behind : Code) (regs : Registers) :
    (∃ before', (optimizeIr2_5 (before ++ .sar (.fixnum m) (.reg64 reg) ::
        .shl (.fixnum n) (.reg64 reg) :: behind)).1 =
      before' ++ .shl (.fixnum (n - m)) (.reg64 reg) :: withShifts behind) ∧
    (run other [.shl (.fixnum (n - m)) (.reg64 reg)] regs =
        run other [.sar (.fixnum m) (.reg64 reg), .shl (.fixnum n) (.reg64 reg)] regs ↔
      (regs reg).toNat % 2 ^ m.toNat = 0) :=
  ⟨optimizeIr2_5_merges hmn _ before behind, exec_shifts_iff hm hmn hn reg regs⟩

/-- A tagged fixnum: its two low bits are zero. -/
theorem merged_iff_fixnum :
    run (fun _ regs => regs) [.shl (.fixnum 1) (.reg64 .rdx)] (fun _ => 20) =
      run (fun _ regs => regs) [.sar (.fixnum 2) (.reg64 .rdx), .shl (.fixnum 3) (.reg64 .rdx)]
        (fun _ => 20) :=
  (merged_iff (m := 2) (n := 3) (by decide) (by decide) (by decide) .rdx [] [] _).2.mpr (by decide)

/-- The word 1 is shifted to 0 by the pair, and to 2 by the shift in its place. -/
theorem not_merged_one :
    run (fun _ regs => regs) (optimizeIr2_5 [.sar (.fixnum 1) (.reg64 .rax),
        .shl (.fixnum 2) (.reg64 .rax)]).1 (fun _ => 1) .rax ≠
      run (fun _ regs => regs) [.sar (.fixnum 1) (.reg64 .rax), .shl (.fixnum 2) (.reg64 .rax)]
        (fun _ => 1) .rax := by
  decide

end Xcl.IR2
