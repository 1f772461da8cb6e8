import Mathlib.Tactic

/-!
# Registers

The sixteen 64-bit registers and their numbers in the encoding of an instruction: `registerNumber`
is the three-bit field of a ModRM, SIB or opcode byte, and `extendedRegisterP` is the bit that
goes into the REX prefix. `register` is the inverse, which a decoder uses.
-/

namespace Xcl.X86

/-- The 64-bit registers. -/
inductive Reg64
  | rax | rcx | rdx | rbx | rsp | rbp | rsi | rdi
  | r8 | r9 | r10 | r11 | r12 | r13 | r14 | r15
  deriving DecidableEq, Repr

/-- `register-number`: the low three bits of the number of a register. -/
def registerNumber : Reg64 → ℕ
  | .rax | .r8 => 0
  | .rcx | .r9 => 1
  | .rdx | .r10 => 2
  | .rbx | .r11 => 3
  | .rsp | .r12 => 4
  | .rbp | .r13 => 5
  | .rsi | .r14 => 6
  | .rdi | .r15 => 7

/-- `extended-register-p`: the high bit of the number of a register. -/
def extendedRegisterP : Reg64 → Bool
  | .rax | .rcx | .rdx | .rbx | .rsp | .rbp | .rsi | .rdi => false
  | .r8 | .r9 | .r10 | .r11 | .r12 | .r13 | .r14 | .r15 => true

/-- The register with these bits. -/
def register (extended : Bool) (n : ℕ) : Reg64 :=
  match extended, n with
  | false, 0 => .rax
  | false, 1 => .rcx
  | false, 2 => .rdx
  | false, 3 => .rbx
  | false, 4 => .rsp
  | false, 5 => .rbp
  | false, 6 => .rsi
  | false, _ => .rdi
  | true, 0 => .r8
  | true, 1 => .r9
  | true, 2 => .r10
  | true, 3 => .r11
  | true, 4 => .r12
  | true, 5 => .r13
  | true, 6 => .r14
  | true, _ => .r15

@[simp] theorem register_registerNumber (r : Reg64) :
    register (extendedRegisterP r) (registerNumber r) = r := by
  cases r <;> rfl

theorem registerNumber_lt (r : Reg64) : registerNumber r < 8 := by
  cases r <;> decide

end Xcl.X86
