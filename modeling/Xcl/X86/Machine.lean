import Xcl.X86.Condition
import Xcl.X86.Register

/-!
# Straight-line code with exits

The checks that the code generator puts in front of an access are straight-line code with jumps to
error labels. `run` executes such code until it ends or a jump is taken.

* `subFlags`, `testFlags`: the flags that a comparison and a test leave.
-/

namespace Xcl.X86

abbrev Word := BitVec 64

/-- The part of the processor state that a check uses. -/
structure State where
  regs : Reg64 → Word
  flags : Flags
  mem : Word → Word

/-- The instructions of a check, in the operand order of the assembler: the source comes first.
`lab` are the labels of the error code. -/
inductive Instr (lab : Type)
  /-- `:test` of an immediate byte against the low byte of a register. -/
  | test (imm : BitVec 8) (reg : Reg64)
  | sar (n : ℕ) (reg : Reg64)
  | mov (imm : Word) (reg : Reg64)
  | cmpImm (imm : Word) (reg : Reg64)
  | cmp (reg1 reg2 : Reg64)
  | cmpMem (reg : Reg64) (displacement : ℤ) (base : Reg64)
  | jmp (test : Cond) (label : lab)

/-- The flags after the subtraction `a - b`. -/
def subFlags (a b : Word) : Flags where
  zf := a == b
  sf := (a - b).msb
  cf := decide (a.toNat < b.toNat)
  of := decide ((a - b).toInt ≠ a.toInt - b.toInt)

/-- The flags after the conjunction `a & b` of two bytes. -/
def testFlags (a b : BitVec 8) : Flags where
  zf := a &&& b == 0
  sf := (a &&& b).msb
  cf := false
  of := false

/-- The registers after a write. -/
def State.set (s : State) (r : Reg64) (w : Word) : State :=
  { s with regs := Function.update s.regs r w }

/-- The flags after a comparison. -/
def State.setFlags (s : State) (f : Flags) : State := { s with flags := f }

/-- How straight-line code ends: at its last instruction or at a label. -/
inductive Outcome (lab : Type)
  | reached (s : State)
  | branched (label : lab) (s : State)

variable {lab : Type}

/-- One instruction. The carry and overflow flags of a shift are not read by a check. -/
def exec (s : State) : Instr lab → Outcome lab
  | .test imm reg => .reached (s.setFlags (testFlags ((s.regs reg).truncate 8) imm))
  | .sar n reg => .reached (s.set reg ((s.regs reg).sshiftRight n))
  | .mov imm reg => .reached (s.set reg imm)
  | .cmpImm imm reg => .reached (s.setFlags (subFlags (s.regs reg) imm))
  | .cmp reg1 reg2 => .reached (s.setFlags (subFlags (s.regs reg2) (s.regs reg1)))
  | .cmpMem reg displacement base =>
    let m := s.mem (s.regs base + BitVec.ofInt 64 displacement)
    .reached (s.setFlags (subFlags m (s.regs reg)))
  | .jmp test label => if test.holds s.flags then .branched label s else .reached s

/-- Straight-line code. -/
def run (s : State) : List (Instr lab) → Outcome lab
  | [] => .reached s
  | i :: code =>
    match exec s i with
    | .reached s => run s code
    | .branched label s => .branched label s

def Reaches (s : State) (code : List (Instr lab)) : Prop := ∃ s', run s code = .reached s'

@[simp] theorem reaches_nil (s : State) : Reaches s ([] : List (Instr lab)) := ⟨s, rfl⟩

theorem reaches_cons {s s' : State} {i : Instr lab} (h : exec s i = .reached s')
    (code : List (Instr lab)) : Reaches s (i :: code) ↔ Reaches s' code := by
  unfold Reaches
  rw [run, h]

theorem reaches_jmp (s : State) (test : Cond) (label : lab) (code : List (Instr lab)) :
    Reaches s (.jmp test label :: code) ↔ test.holds s.flags = false ∧ Reaches s code := by
  unfold Reaches
  cases h : test.holds s.flags <;> simp [run, exec, h]

/-! ## Conditions after a comparison -/

theorem toInt_sub_cases (a b : Word) :
    (a - b).toInt = a.toInt - b.toInt ∨ (a - b).toInt = a.toInt - b.toInt + 2 ^ 64 ∨
      (a - b).toInt = a.toInt - b.toInt - 2 ^ 64 := by
  have ha := BitVec.toInt_lt (x := a)
  have ha' := BitVec.le_toInt a
  have hb := BitVec.toInt_lt (x := b)
  have hb' := BitVec.le_toInt b
  rw [BitVec.toInt_sub, Int.bmod_def]
  split_ifs <;> omega

/-- After a comparison, the sign and overflow flags differ exactly when the first word is smaller
as a signed number. -/
theorem sf_bne_of_subFlags (a b : Word) :
    ((subFlags a b).sf != (subFlags a b).of) = decide (a.toInt < b.toInt) := by
  have ha := BitVec.toInt_lt (x := a)
  have ha' := BitVec.le_toInt a
  have hb := BitVec.toInt_lt (x := b)
  have hb' := BitVec.le_toInt b
  have hc := BitVec.toInt_lt (x := a - b)
  have hc' := BitVec.le_toInt (a - b)
  have hmsb : (a - b).msb = decide ((a - b).toInt < 0) := BitVec.msb_eq_toInt
  have hsub := toInt_sub_cases a b
  rw [Bool.eq_iff_iff]
  simp only [subFlags, hmsb, bne_iff_ne, ne_eq, decide_eq_true_eq, decide_eq_decide]
  rcases hsub with h | h | h <;> simp only [h] at hc hc' ⊢
  · simp only [not_true_eq_false, iff_false, not_lt, not_le]
    omega
  · omega
  · omega

theorem zf_subFlags (a b : Word) : (subFlags a b).zf = decide (a.toInt = b.toInt) := by
  simp only [subFlags, BitVec.toInt_inj, beq_eq_decide]

@[simp] theorem holds_le_subFlags (a b : Word) :
    Cond.holds (subFlags a b) .le = decide (a.toInt ≤ b.toInt) := by
  rw [Cond.holds, sf_bne_of_subFlags, zf_subFlags, Bool.eq_iff_iff]
  simp only [Bool.or_eq_true, decide_eq_true_eq]
  omega

@[simp] theorem holds_a_subFlags (a b : Word) :
    Cond.holds (subFlags a b) .a = decide (b.toNat < a.toNat) := by
  rw [Cond.holds, Bool.eq_iff_iff]
  simp only [subFlags, Bool.and_eq_true, Bool.not_eq_true', decide_eq_false_iff_not,
    decide_eq_true_eq, beq_eq_false_iff_ne, ne_eq, ← BitVec.toNat_inj]
  omega

@[simp] theorem holds_nz_testFlags (a b : BitVec 8) :
    Cond.holds (testFlags a b) .nz = (a &&& b != 0) := rfl

end Xcl.X86
