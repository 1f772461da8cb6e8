import Mathlib.Tactic

/-!
# Condition codes and jump tests

* `Cond`: the condition keywords that `opcode-for-test` and the negation table of
  `optimize-ir2-1c` know, together with `:jump-table`, which marks the entries of a jump table;
* **`holds_negatedTest`**: a negated test holds exactly when the test does not.
-/

namespace Xcl

/-- Labels are uninterned symbols made by `make-label`. -/
abbrev Label := ℕ

inductive Cond
  | e | z | ne | nz | l | nl | le | ge | g | ng | a | ae | na | nae | b | o | no | s
  | jumpTable
  deriving DecidableEq, Repr

/-- Operand 1 of a jump. -/
inductive Test
  | t
  | cond (c : Cond)
  deriving DecidableEq, Repr

structure Flags where
  zf : Bool
  sf : Bool
  cf : Bool
  of : Bool
  deriving DecidableEq, Repr

/-- When a conditional jump is taken. An entry of a jump table is an unconditional jump that is
reached by address only. -/
def Cond.holds (f : Flags) : Cond → Bool
  | .e | .z => f.zf
  | .ne | .nz => !f.zf
  | .l => f.sf != f.of
  | .nl | .ge => f.sf == f.of
  | .le | .ng => f.zf || f.sf != f.of
  | .g => !f.zf && f.sf == f.of
  | .a => !f.cf && !f.zf
  | .na => f.cf || f.zf
  | .ae => !f.cf
  | .nae | .b => f.cf
  | .o => f.of
  | .no => !f.of
  | .s => f.sf
  | .jumpTable => true

/-- When a jump is taken. -/
def Test.holds (f : Flags) : Test → Bool
  | .t => true
  | .cond c => c.holds f

/-- The negation table of `optimize-ir2-1c`; `none` is the failing `(aver nil)`. -/
def negatedTest : Cond → Option Cond
  | .e => some .ne
  | .z => some .nz
  | .ne => some .e
  | .nz => some .z
  | .l => some .nl
  | .nl => some .l
  | .ge => some .l
  | .g => some .ng
  | .ng => some .g
  | .a => some .na
  | .ae => some .nae
  | .na => some .a
  | .nae => some .ae
  | .o => some .no
  | .no => some .o
  | .le | .b | .s | .jumpTable => none

/-- **A negated test holds exactly when the test does not.** -/
theorem holds_negatedTest {c c' : Cond} (h : negatedTest c = some c') (f : Flags) :
    c'.holds f = !c.holds f := by
  cases c <;> simp only [negatedTest, Option.some.injEq, reduceCtorEq] at h <;> subst h <;>
    simp only [Cond.holds] <;> cases f.zf <;> cases f.sf <;> cases f.cf <;> cases f.of <;> rfl

theorem negatedTest_isSome {c c' : Cond} (h : negatedTest c = some c') :
    (negatedTest c').isSome := by
  cases c <;> simp only [negatedTest, Option.some.injEq, reduceCtorEq] at h <;> subst h <;> rfl

end Xcl
