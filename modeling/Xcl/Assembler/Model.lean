import Xcl.X86.Decode

/-!
# The x86-64 assembler

The functions that `define-assembler` defines, on 64-bit registers, integers and memory operands
with a base and perhaps a displacement. They return the bytes that are emitted; the result is `none`
where the assembler signals an error.
-/

namespace Xcl.Assembler

open X86 (Reg64 registerNumber extendedRegisterP Mnemonic)

/-- An operand: `nil`, a register, an integer, or a memory operand `(base)` or
`(displacement base)`. -/
inductive Operand
  | null
  | reg64 (r : Reg64)
  | int (n : ℤ)
  | mem (base : Reg64)
  | memDisp (displacement : ℤ) (base : Reg64)
  deriving DecidableEq, Repr

structure Instruction where
  mnemonic : Mnemonic
  operand1 : Operand
  operand2 : Operand
  deriving DecidableEq, Repr

/-! ## Bytes -/

/-- `(ldb (byte 8 position) n)`. -/
def ldb8 (position : ℕ) (n : ℤ) : ℕ := (n / 2 ^ position % 256).toNat

/-- The low `k` bytes of a number, the lowest first. -/
def rawBytes (k : ℕ) (n : ℤ) : List ℕ := (List.range k).map fun i => ldb8 (8 * i) n

def emitRaw : ℤ → List ℕ := rawBytes 4

def emitRawDword : ℤ → List ℕ := rawBytes 4

def emitRawQword : ℤ → List ℕ := rawBytes 8

def makeModrmByte (mod reg rm : ℕ) : ℕ := mod <<< 6 + reg <<< 3 + rm

/-- The constant `rex.r`. -/
def rexR : ℕ := 4

/-- The constant `rex.b`. -/
def rexB : ℕ := 1

/-- The prefix byte of an instruction with two registers: `rex.r` and `rex.b` are set for extended
registers. -/
def prefixByte (r b : Reg64) : ℕ :=
  let byte := 0x48
  let byte := if extendedRegisterP r then byte ||| rexR else byte
  if extendedRegisterP b then byte ||| rexB else byte

def prefixByte1 (b : Reg64) : ℕ := if extendedRegisterP b then 0x49 else 0x48

/-- The type `(signed-byte w)`. -/
def signedByte (w : ℕ) (n : ℤ) : Bool := -2 ^ (w - 1) ≤ n && n < 2 ^ (w - 1)

/-- The type `(unsigned-byte w)`. -/
def unsignedByte (w : ℕ) (n : ℤ) : Bool := 0 ≤ n && n < 2 ^ w

/-- The byte that is emitted `(when (memq reg '(:rsp :r12)) (emit-byte #x24))`. -/
def sibByte (reg : Reg64) : List ℕ := if reg = .rsp ∨ reg = .r12 then [0x24] else []

/-! ## Arithmetic -/

/-- The register forms of `:add` and `:sub`. -/
def assembleRegReg (opcode : ℕ) (reg1 reg2 : Reg64) : List ℕ :=
  [prefixByte reg1 reg2, opcode, makeModrmByte 3 (registerNumber reg1) (registerNumber reg2)]

/-- The immediate forms of `:add` and `:sub`. -/
def assembleImmReg (reg : ℕ) (n : ℤ) (reg2 : Reg64) : Option (List ℕ) :=
  let modrmByte := makeModrmByte 3 reg (registerNumber reg2)
  if signedByte 8 n then some [prefixByte1 reg2, 0x83, modrmByte, ldb8 0 n]
  else if signedByte 32 n then some ([prefixByte1 reg2, 0x81, modrmByte] ++ emitRawDword n)
  else none

/-- `:add`. -/
def assembleAdd : Operand → Operand → Option (List ℕ)
  | .reg64 reg1, .reg64 reg2 => some (assembleRegReg 0x01 reg1 reg2)
  | .int n, .reg64 reg2 => assembleImmReg 0 n reg2
  | _, _ => none

/-- `:sub`. -/
def assembleSub : Operand → Operand → Option (List ℕ)
  | .int n, .reg64 reg2 => assembleImmReg 5 n reg2
  | .reg64 reg1, .reg64 reg2 => some (assembleRegReg 0x29 reg1 reg2)
  | _, _ => none

/-- The register forms of `:and`, `:cmp` and `:test`. The prefix byte does not depend on the
registers. -/
def assembleLowRegReg (opcode : ℕ) (reg1 reg2 : Reg64) : List ℕ :=
  [0x48, opcode, makeModrmByte 3 (registerNumber reg1) (registerNumber reg2)]

/-- `:and`. -/
def assembleAnd : Operand → Operand → Option (List ℕ)
  | .reg64 reg1, .reg64 reg2 => some (assembleLowRegReg 0x21 reg1 reg2)
  | .int n, .reg64 reg2 =>
    if signedByte 32 n ∧ reg2 = .rax then some ([0x48, 0x25] ++ emitRaw n)
    else if signedByte 8 n then
      some [0x48, 0x83, makeModrmByte 3 4 (registerNumber reg2), ldb8 0 n]
    else none
  | _, _ => none

/-- `:cmp`. In the form with a memory operand the bits of the prefix byte are set for the other
register each, and the SIB byte is emitted for the register operand. -/
def assembleCmp : Operand → Operand → Option (List ℕ)
  | .reg64 reg1, .reg64 reg2 => some (assembleLowRegReg 0x39 reg1 reg2)
  | .int n, .reg64 reg2 =>
    if signedByte 32 n ∧ reg2 = .rax then some ([0x48, 0x3d] ++ emitRaw n)
    else if signedByte 32 n ∧ reg2 ∈ [.rcx, .rdx, .rbx, .rsp, .rbp, .rsi, .rdi] then
      some ([0x48, 0x81, makeModrmByte 3 7 (registerNumber reg2)] ++ emitRawDword n)
    else none
  | .reg64 reg1, .memDisp displacement reg2 =>
    if signedByte 8 displacement then
      some ([prefixByte reg2 reg1, 0x39,
        makeModrmByte 1 (registerNumber reg1) (registerNumber reg2)] ++ sibByte reg1 ++
        [ldb8 0 displacement])
    else none
  | _, _ => none

/-- `:test`. -/
def assembleTest : Operand → Operand → Option (List ℕ)
  | .reg64 reg1, .reg64 reg2 => some (assembleLowRegReg 0x85 reg1 reg2)
  | .int n, .reg64 reg2 =>
    if unsignedByte 32 n then
      some ([0x48, 0xf7, makeModrmByte 3 0 (registerNumber reg2)] ++ emitRaw n)
    else none
  | _, _ => none

/-! ## Shifts -/

/-- `:sar`. The prefix byte does not depend on the register. -/
def assembleSar (operand1 operand2 : Operand) : Option (List ℕ) :=
  let (operand1, operand2) : Operand × Operand :=
    match operand1, operand2 with
    | .reg64 reg1, .null => (.int 1, .reg64 reg1)
    | operand1, operand2 => (operand1, operand2)
  match operand1, operand2 with
  | .int n, .reg64 reg2 =>
    let modrmByte := makeModrmByte 3 7 (registerNumber reg2)
    if n = 1 then some [0x48, 0xd1, modrmByte]
    else if unsignedByte 8 n then some [0x48, 0xc1, modrmByte, n.toNat]
    else none
  | _, _ => none

/-- `:shl`. -/
def assembleShl : Operand → Operand → Option (List ℕ)
  | .reg64 reg1, .null =>
    some [prefixByte1 reg1, 0xd1, makeModrmByte 3 4 (registerNumber reg1)]
  | .int n, .reg64 reg2 =>
    let modrmByte := makeModrmByte 3 4 (registerNumber reg2)
    if n = 1 then some [prefixByte1 reg2, 0xd1, modrmByte]
    else if unsignedByte 8 n then some [prefixByte1 reg2, 0xc1, modrmByte, n.toNat]
    else none
  | _, _ => none

/-! ## Moves -/

/-- `:cmovg` and `:cmovl`. The register fields and the bits of the prefix byte are those of
different registers. -/
def assembleCmov (opcode : ℕ) : Operand → Operand → Option (List ℕ)
  | .reg64 reg1, .reg64 reg2 =>
    some [prefixByte reg1 reg2, 0x0f, opcode,
      makeModrmByte 3 (registerNumber reg2) (registerNumber reg1)]
  | _, _ => none

/-- `:lea`. -/
def assembleLea : Operand → Operand → Option (List ℕ)
  | .memDisp displacement reg1, .reg64 reg2 =>
    if signedByte 8 displacement then
      some ([prefixByte reg2 reg1, 0x8d,
        makeModrmByte 1 (registerNumber reg2) (registerNumber reg1)] ++ sibByte reg1 ++
        [ldb8 0 displacement])
    else none
  | _, _ => none

/-- A move between `reg` and memory, without a SIB byte if there is no displacement or a large
one. -/
def assembleMovMem (opcode : ℕ) (reg : Reg64) (displacement : ℤ) (base : Reg64) : List ℕ :=
  let modrmByte := fun mod => makeModrmByte mod (registerNumber reg) (registerNumber base)
  if displacement = 0 then [prefixByte reg base, opcode, modrmByte 0]
  else if signedByte 8 displacement then
    [prefixByte reg base, opcode, modrmByte 1] ++ sibByte base ++ [ldb8 0 displacement]
  else [prefixByte reg base, opcode, modrmByte 2] ++ emitRaw displacement

/-- A move to memory with the base `:rsp`. -/
def assembleMovRsp (reg : Reg64) (displacement : ℤ) : List ℕ :=
  let modrmByte := fun mod => makeModrmByte mod (registerNumber reg) (registerNumber .rsp)
  if displacement = 0 then [prefixByte reg .rsp, 0x89, modrmByte 0, 0x24]
  else if signedByte 8 displacement then
    [prefixByte reg .rsp, 0x89, modrmByte 1, 0x24, ldb8 0 displacement]
  else [prefixByte reg .rsp, 0x89, modrmByte 2, 0x24] ++ emitRaw displacement

/-- `:mov`. -/
def assembleMov : Operand → Operand → Option (List ℕ)
  | .reg64 reg1, .reg64 reg2 => some (assembleRegReg 0x89 reg1 reg2)
  | .mem reg1, .reg64 reg2 =>
    some [prefixByte reg2 reg1, 0x8b, makeModrmByte 0 (registerNumber reg2) (registerNumber reg1)]
  | .memDisp displacement reg1, .reg64 reg2 => some (assembleMovMem 0x8b reg2 displacement reg1)
  | .reg64 reg1, .memDisp displacement reg2 =>
    if reg2 = .rsp then some (assembleMovRsp reg1 displacement)
    else some (assembleMovMem 0x89 reg1 displacement reg2)
  | .reg64 reg1, .mem reg2 =>
    if reg2 = .rsp ∧ reg1 = .rax then some [0x48, 0x89, 0x04, 0x24]
    else some
      [prefixByte reg1 reg2, 0x89, makeModrmByte 0 (registerNumber reg1) (registerNumber reg2)]
  | .int n, .reg64 reg2 =>
    if signedByte 32 n then
      some ([prefixByte1 reg2, 0xc7, makeModrmByte 3 0 (registerNumber reg2)] ++ emitRawDword n)
    else if signedByte 64 n ∨ unsignedByte 64 n then
      some ([prefixByte1 reg2, 0xb8 + registerNumber reg2] ++ emitRawQword n)
    else none
  | _, _ => none

/-! ## The stack -/

/-- The register forms of `:push` and `:pop`. -/
def assembleStackReg (opcode : ℕ) (reg1 : Reg64) : List ℕ :=
  if extendedRegisterP reg1 then [0x41, opcode + registerNumber reg1]
  else [opcode + registerNumber reg1]

/-- `:pop`. The memory forms have neither a prefix byte nor a SIB byte. -/
def assemblePop : Operand → Option (List ℕ)
  | .reg64 reg1 => some (assembleStackReg 0x58 reg1)
  | .mem base => some [0x8f, makeModrmByte 0 0 (registerNumber base)]
  | .memDisp displacement base =>
    if signedByte 8 displacement then
      some [0x8f, makeModrmByte 1 0 (registerNumber base), ldb8 0 displacement]
    else none
  | _ => none

/-- `:push`. The memory forms have neither a prefix byte nor a SIB byte. -/
def assemblePush : Operand → Option (List ℕ)
  | .reg64 reg1 => some (assembleStackReg 0x50 reg1)
  | .int n =>
    if signedByte 8 n then some [0x6a, ldb8 0 n]
    else if signedByte 32 n then some ([0x68] ++ emitRaw n)
    else none
  | .memDisp displacement base =>
    if signedByte 8 displacement then
      some [0xff, makeModrmByte 1 6 (registerNumber base), ldb8 0 displacement]
    else if signedByte 32 displacement then
      some ([0xff, makeModrmByte 2 6 (registerNumber base)] ++ emitRaw displacement)
    else none
  | _ => none

def assembleInstruction (i : Instruction) : Option (List ℕ) :=
  match i.mnemonic with
  | .add => assembleAdd i.operand1 i.operand2
  | .and => assembleAnd i.operand1 i.operand2
  | .cmovg => assembleCmov 0x4f i.operand1 i.operand2
  | .cmovl => assembleCmov 0x4c i.operand1 i.operand2
  | .cmp => assembleCmp i.operand1 i.operand2
  | .lea => assembleLea i.operand1 i.operand2
  | .mov => assembleMov i.operand1 i.operand2
  | .pop => assemblePop i.operand1
  | .push => assemblePush i.operand1
  | .sar => assembleSar i.operand1 i.operand2
  | .shl => assembleShl i.operand1 i.operand2
  | .sub => assembleSub i.operand1 i.operand2
  | .test => assembleTest i.operand1 i.operand2

end Xcl.Assembler
