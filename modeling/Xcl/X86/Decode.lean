import Xcl.X86.Register

/-!
# Decoding instructions

The bytes of an instruction with 64-bit operands: an optional REX prefix, an opcode of one or two
bytes, the ModRM byte and what it asks for (a SIB byte, a displacement), an immediate.
-/

namespace Xcl.X86

structure Rex where
  w : Bool
  r : Bool
  x : Bool
  b : Bool
  deriving DecidableEq, Repr

/-- A byte `0100wrxb` in front of the opcode is a REX prefix. -/
def takeRex : List ℕ → Rex × List ℕ
  | [] => (⟨false, false, false, false⟩, [])
  | byte :: bytes =>
    if byte / 16 = 4 then
      (⟨byte.testBit 3, byte.testBit 2, byte.testBit 1, byte.testBit 0⟩, bytes)
    else (⟨false, false, false, false⟩, byte :: bytes)

/-- The next `k` bytes as a number, the low byte first. -/
def takeUnsigned : ℕ → List ℕ → Option (ℕ × List ℕ)
  | 0, bytes => some (0, bytes)
  | _ + 1, [] => none
  | k + 1, byte :: bytes => do
    let (n, bytes) ← takeUnsigned k bytes
    return (byte + 256 * n, bytes)

/-- The next `k` bytes as a signed number. -/
def takeSigned (k : ℕ) (bytes : List ℕ) : Option (ℤ × List ℕ) := do
  let (n, bytes) ← takeUnsigned k bytes
  return ((n : ℤ).bmod (2 ^ (8 * k)), bytes)

/-! ## Operands -/

inductive Base
  | none
  | rip
  | reg (r : Reg64)
  deriving DecidableEq, Repr

structure Address where
  base : Base
  index : Option (Reg64 × ℕ)
  disp : ℤ
  deriving DecidableEq, Repr

/-- An operand of an instruction. -/
inductive Place
  | none
  | reg (r : Reg64)
  | imm (n : ℤ)
  | mem (a : Address)
  deriving DecidableEq, Repr

def takeSib (rex : Rex) (mod : ℕ) : List ℕ → Option (Base × Option (Reg64 × ℕ) × List ℕ)
  | [] => none
  | sib :: bytes =>
    let base := if sib % 8 = 5 ∧ mod = 0 then .none else .reg (register rex.b (sib % 8))
    let index :=
      if sib / 8 % 8 = 4 ∧ rex.x = false then none
      else some (register rex.x (sib / 8 % 8), 2 ^ (sib / 64))
    some (base, index, bytes)

/-- Base and index of a memory operand. -/
def takeBase (rex : Rex) (mod rm : ℕ) (bytes : List ℕ) :
    Option (Base × Option (Reg64 × ℕ) × List ℕ) :=
  if rm = 4 then takeSib rex mod bytes
  else if rm = 5 ∧ mod = 0 then some (.rip, none, bytes)
  else some (.reg (register rex.b rm), none, bytes)

/-- The number of bytes of the displacement. -/
def dispSize (mod : ℕ) : Base → ℕ
  | .reg _ => if mod = 0 then 0 else if mod = 1 then 1 else 4
  | _ => if mod = 1 then 1 else 4

/-- The `reg` field of a ModRM byte, and the operand that its `mod` and `rm` fields and the bytes
behind it denote. -/
def takeModrm (rex : Rex) : List ℕ → Option (ℕ × Place × List ℕ)
  | [] => none
  | modrm :: bytes =>
    let mod := modrm / 64
    let reg := modrm / 8 % 8
    let rm := modrm % 8
    if mod = 3 then some (reg, .reg (register rex.b rm), bytes)
    else do
      let (base, index, bytes) ← takeBase rex mod rm bytes
      let (disp, bytes) ← takeSigned (dispSize mod base) bytes
      return (reg, .mem ⟨base, index, disp⟩, bytes)

/-! ## Instructions -/

inductive Mnemonic
  | add | and | cmovg | cmovl | cmp | lea | mov | pop | push | sar | shl | sub | test
  deriving DecidableEq, Repr

structure Decoded where
  mnemonic : Mnemonic
  operand1 : Place
  operand2 : Place
  deriving DecidableEq, Repr

def regToRm (mnemonic : Mnemonic) (rex : Rex) (bytes : List ℕ) : Option (Decoded × List ℕ) := do
  let (reg, rm, bytes) ← takeModrm rex bytes
  return (⟨mnemonic, .reg (register rex.r reg), rm⟩, bytes)

def rmToReg (mnemonic : Mnemonic) (rex : Rex) (bytes : List ℕ) : Option (Decoded × List ℕ) := do
  let (reg, rm, bytes) ← takeModrm rex bytes
  return (⟨mnemonic, rm, .reg (register rex.r reg)⟩, bytes)

/-- The address of a memory operand to a register. -/
def leaToReg (rex : Rex) (bytes : List ℕ) : Option (Decoded × List ℕ) := do
  let (reg, rm, bytes) ← takeModrm rex bytes
  match rm with
  | .mem a => return (⟨.lea, .mem a, .reg (register rex.r reg)⟩, bytes)
  | _ => none

/-- An immediate of `k` bytes and a register or memory; the `reg` field selects the instruction. -/
def immToRm (group : ℕ → Option Mnemonic) (k : ℕ) (rex : Rex) (bytes : List ℕ) :
    Option (Decoded × List ℕ) := do
  let (reg, rm, bytes) ← takeModrm rex bytes
  let mnemonic ← group reg
  let (n, bytes) ← takeSigned k bytes
  return (⟨mnemonic, .imm n, rm⟩, bytes)

/-- An immediate of `k` bytes and a register. -/
def immToReg (mnemonic : Mnemonic) (k : ℕ) (r : Reg64) (bytes : List ℕ) :
    Option (Decoded × List ℕ) := do
  let (n, bytes) ← takeSigned k bytes
  return (⟨mnemonic, .imm n, .reg r⟩, bytes)

/-- The group of the opcodes `81` and `83`. -/
def group1 : ℕ → Option Mnemonic
  | 0 => some .add
  | 4 => some .and
  | 5 => some .sub
  | 7 => some .cmp
  | _ => none

/-- The group of the shifts. -/
def group2 : ℕ → Option Mnemonic
  | 4 => some .shl
  | 7 => some .sar
  | _ => none

/-- The member of a group with the `reg` field 0. -/
def onlyZero (mnemonic : Mnemonic) (reg : ℕ) : Option Mnemonic :=
  if reg = 0 then some mnemonic else none

/-- A shift of a register or memory; the count is read by `count`. -/
def shiftRm (count : List ℕ → Option (ℕ × List ℕ)) (rex : Rex) (bytes : List ℕ) :
    Option (Decoded × List ℕ) := do
  let (reg, rm, bytes) ← takeModrm rex bytes
  let mnemonic ← group2 reg
  let (n, bytes) ← count bytes
  return (⟨mnemonic, .imm n, rm⟩, bytes)

/-- A push or a pop of a register or memory; the `reg` field must be `field`. -/
def stackRm (mnemonic : Mnemonic) (field : ℕ) (rex : Rex) (bytes : List ℕ) :
    Option (Decoded × List ℕ) := do
  let (reg, rm, bytes) ← takeModrm rex bytes
  if reg = field then return (⟨mnemonic, rm, .none⟩, bytes) else none

/-- A push of an immediate of `k` bytes. -/
def pushImm (k : ℕ) (bytes : List ℕ) : Option (Decoded × List ℕ) := do
  let (n, bytes) ← takeSigned k bytes
  return (⟨.push, .imm n, .none⟩, bytes)

/-- The instructions with 64-bit operands whose opcode does not need REX.W. -/
def decodeStack (rex : Rex) (opcode : ℕ) (bytes : List ℕ) : Option (Decoded × List ℕ) :=
  if opcode / 8 = 0x0a then some (⟨.push, .reg (register rex.b (opcode % 8)), .none⟩, bytes)
  else if opcode / 8 = 0x0b then some (⟨.pop, .reg (register rex.b (opcode % 8)), .none⟩, bytes)
  else if opcode = 0x68 then pushImm 4 bytes
  else if opcode = 0x6a then pushImm 1 bytes
  else if opcode = 0x8f then stackRm .pop 0 rex bytes
  else if opcode = 0xff then stackRm .push 6 rex bytes
  else none

/-- The instructions with REX.W. -/
def decodeWide (rex : Rex) (opcode : ℕ) (bytes : List ℕ) : Option (Decoded × List ℕ) :=
  match opcode with
  | 0x01 => regToRm .add rex bytes
  | 0x21 => regToRm .and rex bytes
  | 0x29 => regToRm .sub rex bytes
  | 0x39 => regToRm .cmp rex bytes
  | 0x85 => regToRm .test rex bytes
  | 0x89 => regToRm .mov rex bytes
  | 0x8b => rmToReg .mov rex bytes
  | 0x8d => leaToReg rex bytes
  | 0x25 => immToReg .and 4 .rax bytes
  | 0x3d => immToReg .cmp 4 .rax bytes
  | 0x81 => immToRm group1 4 rex bytes
  | 0x83 => immToRm group1 1 rex bytes
  | 0xc7 => immToRm (onlyZero .mov) 4 rex bytes
  | 0xf7 => immToRm (onlyZero .test) 4 rex bytes
  | 0xc1 => shiftRm (takeUnsigned 1) rex bytes
  | 0xd1 => shiftRm (fun bytes => some (1, bytes)) rex bytes
  | opcode =>
    if opcode / 8 = 0x17 then immToReg .mov 8 (register rex.b (opcode % 8)) bytes else none

/-- The instructions with an opcode of two bytes, `0f` and `opcode`. -/
def decodeTwoByte (rex : Rex) (opcode : ℕ) (bytes : List ℕ) : Option (Decoded × List ℕ) :=
  match opcode with
  | 0x4c => rmToReg .cmovl rex bytes
  | 0x4f => rmToReg .cmovg rex bytes
  | _ => none

/-- An instruction with 64-bit operands, and the bytes behind it. -/
def decodeOpcode (rex : Rex) : List ℕ → Option (Decoded × List ℕ)
  | [] => none
  | opcode :: bytes =>
    match decodeStack rex opcode bytes with
    | some result => some result
    | none =>
      if rex.w then
        match opcode, bytes with
        | 0x0f, opcode :: bytes => decodeTwoByte rex opcode bytes
        | opcode, bytes => decodeWide rex opcode bytes
      else none

/-- No bytes are left. -/
def complete : Option (Decoded × List ℕ) → Option Decoded
  | some (instruction, []) => some instruction
  | _ => none

/-- **The instruction that the bytes are**, if they are one instruction and no more. -/
def decode (bytes : List ℕ) : Option Decoded :=
  let (rex, bytes) := takeRex bytes
  complete (decodeOpcode rex bytes)

end Xcl.X86
