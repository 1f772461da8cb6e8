import Xcl.DeriveType
import Xcl.Lib.FlatCode
import Xcl.Lib.Shift
import Xcl.Numbers.Model
import Xcl.P2.BoundsCheck

/-!
# Inline `ASH`

The code that `p2-ash` emits for a register or for `:return`, and the machine that executes it.

* `Contents`, `object`: what a register holds, and the object of an integer;
* `clAsh`: the kernel function `CL_ash`.
-/

namespace Xcl.P2.Ash

open X86 FlatCode
open DeriveType (subtypepInteger)
open Numbers (InFixnumRange)

/-! ## Objects -/

inductive Contents
  | word (w : Word)
  | bignum (z : ℤ)
  deriving DecidableEq

/-- The object of an integer. -/
def object (n : ℤ) : Contents := if InFixnumRange n then .word (fixnumize n) else .bignum n

def lowtagTypedObject : BitVec 8 := 2

/-- The low byte, of an address as far as its tag. -/
def Contents.lowByte : Contents → BitVec 8
  | word w => w.truncate 8
  | bignum _ => lowtagTypedObject

def Contents.integer : Contents → Option ℤ
  | word w => if fixnump w then some (fixnumValue w) else none
  | bignum z => some z

/-! ## The kernel -/

/-- The first clauses of `CL_ash` for two fixnums; the operands of a shift are `long`s. -/
def ashFixnums (n shift : ℤ) : Option ℤ :=
  if 0 < shift then
    if 0 < n ∧ n < 4294967296 ∧ shift ≤ 32 then
      some (BitVec.ofInt 64 n <<< shift.toNat).toNat
    else if shift < 3 then some (BitVec.ofInt 64 n <<< shift.toNat).toInt
    else none
  else if -61 < shift then some ((BitVec.ofInt 64 n).sshiftRight (-shift).toNat).toInt
  else some (if 0 ≤ n then 0 else -1)

/-- The clauses of `CL_ash` for an integer `z` of the library; the last one signals an error. -/
def ashMpz (z arg2 : ℤ) : Option ℤ :=
  if InFixnumRange arg2 then
    some (if 0 ≤ arg2 then z * 2 ^ arg2.toNat else z / 2 ^ (-arg2).toNat)
  else if 0 < arg2 then none
  else some (if 0 ≤ z then 0 else -1)

/-- `CL_ash` of two integers. -/
def clAsh (arg1 arg2 : ℤ) : Option ℤ :=
  if arg2 = 0 then some arg1
  else if arg1 = 0 then some arg1
  else
    let fast := if InFixnumRange arg1 ∧ InFixnumRange arg2 then ashFixnums arg1 arg2 else none
    fast.or (ashMpz arg1 arg2)

/-! ## The machine -/

/-- The labels of `p2-ash`. -/
inductive Label
  | fullCall
  | rightShift
  | bignum
  | exit
  deriving DecidableEq, Repr

inductive Function
  | ash
  | requireInteger
  | rtMakeUnsignedInteger
  | rtMakeUnsignedBignum
  deriving DecidableEq, Repr

/-- An argument form: an integer literal, or another form with the answer of `flushable`. -/
inductive Arg
  | literal (n : ℤ)
  | form (flushable : Bool)
  deriving DecidableEq

def Arg.flushable : Arg → Bool
  | literal _ => true
  | form flushable => flushable

/-- The value of an argument whose form returns `x`. -/
def Arg.value (x : ℤ) : Arg → ℤ
  | literal n => n
  | form _ => x

inductive Instr
  /-- `process-1-arg` of the first argument. -/
  | process1 (arg1 : Arg) (reg : Reg64)
  /-- `process-2-args`. -/
  | process2 (arg1 arg2 : Arg) (reg1 reg2 : Reg64)
  /-- `p2` of an argument for effect. -/
  | effect (arg : Arg)
  /-- `p2-constant`. -/
  | constant (n : ℤ) (reg : Reg64)
  | sar (n : ℕ) (reg : Reg64)
  | shl (n : ℕ) (reg : Reg64)
  | sarCl (reg : Reg64)
  | shlCl (reg : Reg64)
  | neg (reg : Reg64)
  /-- `:and` of an immediate byte and the low byte of a register. -/
  | andByte (imm : BitVec 8) (reg : Reg64)
  /-- `:test` of an immediate byte and the low byte of a register. -/
  | testByte (imm : BitVec 8) (reg : Reg64)
  | test (reg1 reg2 : Reg64)
  | mov (reg1 reg2 : Reg64)
  | movImm (w : Word) (reg : Reg64)
  | jmp (test : Test) (label : Label)
  | call (f : Function)
  | exit
  deriving DecidableEq

structure State where
  regs : Reg64 → Contents
  flags : Flags

/-- The registers after a write. -/
def State.set (s : State) (r : Reg64) (c : Contents) : State :=
  { s with regs := Function.update s.regs r c }

/-- The word in a register. -/
def State.word (s : State) (r : Reg64) : Option Word :=
  match s.regs r with
  | .word w => some w
  | .bignum _ => none

/-- The operands, and what evaluated forms and called functions leave in the registers that do not
hold their results. -/
structure Env where
  x : ℤ
  shift : ℤ
  trash : Reg64 → Contents

/-- What a function returns; `none` where an error is signalled or an assertion fails. -/
def Function.apply (s : State) : Function → Option Contents
  | ash => do
    let arg1 ← (s.regs .rdi).integer
    let arg2 ← (s.regs .rsi).integer
    (clAsh arg1 arg2).map object
  | requireInteger => (s.regs .rdi).integer.map fun _ => s.regs .rdi
  | rtMakeUnsignedInteger => (s.word .rdi).map fun w => object w.toNat
  | rtMakeUnsignedBignum => do
    let n ← s.word .rdi
    if (n.toNat : ℤ) > Numbers.mostPositiveFixnum then some (.bignum n.toNat) else none

def maskByte (imm : BitVec 8) (w : Word) : Word := w &&& (imm.setWidth 64 ||| ~~~255)

def wordTestFlags (a b : Word) : Flags where
  zf := a &&& b == 0
  sf := (a &&& b).msb
  cf := false
  of := false

/-- A register changed as a word. -/
def State.modify (s : State) (reg : Reg64) (f : Word → Word) : Option (Effect Label State) :=
  (s.word reg).map fun w => .next (s.set reg (.word (f w)))

/-- A shift by the low six bits of `cl`. -/
def State.shiftCl (s : State) (reg : Reg64) (f : Word → ℕ → Word) :
    Option (Effect Label State) := do
  let cl ← s.word .rcx
  s.modify reg fun w => f w (cl.toNat % 64)

/-- One instruction. The flags of the shifts, of `:neg` and of `:and` are not read by the code. -/
def exec (env : Env) (i : Instr) (s : State) : Option (Effect Label State) :=
  match i with
  | .process1 arg1 reg =>
    some (.next { s with
      regs := Function.update env.trash reg (object (arg1.value env.x)) })
  | .process2 arg1 arg2 reg1 reg2 =>
    some (.next { s with
      regs := Function.update (Function.update env.trash reg1 (object (arg1.value env.x)))
        reg2 (object (arg2.value env.shift)) })
  | .effect _ => some (.next { s with regs := env.trash })
  | .constant n reg => some (.next (s.set reg (object n)))
  | .sar n reg => s.modify reg fun w => w.sshiftRight (n % 64)
  | .shl n reg => s.modify reg fun w => w <<< (n % 64)
  | .sarCl reg => s.shiftCl reg BitVec.sshiftRight
  | .shlCl reg => s.shiftCl reg fun w n => w <<< n
  | .neg reg => s.modify reg fun w => -w
  | .andByte imm reg => s.modify reg (maskByte imm)
  | .testByte imm reg => some (.next { s with flags := testFlags (s.regs reg).lowByte imm })
  | .test reg1 reg2 => do
    let w1 ← s.word reg1
    let w2 ← s.word reg2
    some (.next { s with flags := wordTestFlags w1 w2 })
  | .mov reg1 reg2 => some (.next (s.set reg2 (s.regs reg1)))
  | .movImm w reg => some (.next (s.set reg (.word w)))
  | .jmp test label => some (if test.holds s.flags then .jump label s else .next s)
  | .call f =>
    (f.apply s).map fun c => .next { s with regs := Function.update env.trash .rax c }
  | .exit => some (.stop s)

/-! ## Code generation -/

/-- Where the value is wanted. -/
inductive Target
  | register (reg : Reg64)
  /-- `:return`. -/
  | ret
  deriving DecidableEq

/-- The register that holds the value. -/
def Target.reg : Target → Reg64
  | register reg => reg
  | ret => .rax

abbrev Code := List (Item Instr Label)

structure Segments where
  main : Code
  elsewhere : Code := []

/-- The code of a function: the main segment goes on after the code for the form, which is left
out, and ends before what is elsewhere. -/
def Segments.code (segments : Segments) : Code :=
  segments.main ++ .instr .exit :: segments.elsewhere

/-- The exit that follows a value in `rax`. -/
def Target.exit : Target → Code
  | register _ => []
  | ret => [.instr .exit]

def moveResultToTarget : Target → Code
  | .register .rax => []
  | .register reg => [.instr (.mov .rax reg)]
  | .ret => [.instr .exit]

def integerConstantValue : DeriveType.DerivedType → Option ℤ
  | .integer (some low) (some high) => if high = low then some high else none
  | _ => none

def integerTypeP : DeriveType.DerivedType → Bool
  | .integer _ _ => true
  | _ => false

/-- The form `(ash arg1 arg2)` with its derived types. -/
structure Call where
  arg1 : Arg
  arg2 : Arg
  type1 : DeriveType.DerivedType
  type2 : DeriveType.DerivedType
  resultType : DeriveType.DerivedType

def Arg.replace (type : DeriveType.DerivedType) (arg : Arg) : Arg :=
  match integerConstantValue type with
  | some value =>
    match arg with
    | .literal n => if InFixnumRange n then .literal n else .literal value
    | .form flushable => if flushable then .literal value else .form flushable
  | none => arg

/-- `p2` for effect, unless the argument can be flushed. -/
def effect (arg : Arg) : Code := if arg.flushable then [] else [.instr (.effect arg)]

def p2Constant (n : ℤ) (target : Target) : Code :=
  .instr (.constant n target.reg) :: target.exit

def bitsPerWord : ℤ := 64

/-- `unbox-fixnum` and `box-fixnum` -/
def unboxFixnum (reg : Reg64) : Item Instr Label := .instr (.sar 2 reg)

def boxFixnum (reg : Reg64) : Item Instr Label := .instr (.shl 2 reg)

def clearTagBits (reg : Reg64) : Item Instr Label := .instr (.andByte 0xfc reg)

def jump (test : Test) (label : Label) : Item Instr Label := .instr (.jmp test label)

variable (c : Call) (arg1 arg2 : Arg) (safety : ℕ) (target : Target)

def zeroShift : Code :=
  if arg2.flushable then
    if integerTypeP c.type1 ∨ safety = 0 then
      .instr (.process1 arg1 target.reg) :: target.exit
    else
      .instr (.process1 arg1 .rdi) :: .instr (.call .requireInteger) :: moveResultToTarget target
  else
    .instr (.process2 c.arg1 c.arg2 .rdi .rcx) :: .instr (.call .requireInteger) ::
      moveResultToTarget target

/-- The shift by a register that follows a negation. -/
def negatedShift : Code := [.instr (.neg .rcx), .instr (.sarCl .rax), clearTagBits .rax]

def knownFixnumShift (shift : ℤ) : Code :=
  if arg2.flushable then
    let reg := target.reg
    .instr (.process1 arg1 reg) ::
      ((if shift < 0 then [.instr (.sar (-shift).toNat reg), clearTagBits reg]
        else [.instr (.shl shift.toNat reg)]) ++
      if target = .register reg then [] else moveResultToTarget target)
  else
    .instr (.process2 c.arg1 c.arg2 .rax .rcx) :: unboxFixnum .rcx ::
      ((if shift < 0 then negatedShift else [.instr (.shlCl .rax)]) ++ moveResultToTarget target)

def fullCall : Code :=
  .instr (.process2 c.arg1 c.arg2 .rdi .rsi) :: .instr (.call .ash) :: moveResultToTarget target

/-- The clause for operands and results that are fixnums. -/
def fixnumShift : Code :=
  match (integerConstantValue c.type2).filter fun shift => |shift| < bitsPerWord with
  | some shift => knownFixnumShift c arg1 arg2 target shift
  | none =>
    if subtypepInteger (some (-(bitsPerWord - 1))) (some 0) c.type2 then
      .instr (.process2 c.arg1 c.arg2 .rax .rcx) :: unboxFixnum .rcx ::
        (negatedShift ++ moveResultToTarget target)
    else if subtypepInteger (some 0) (some (bitsPerWord - 1)) c.type2 then
      .instr (.process2 c.arg1 c.arg2 .rax .rcx) :: unboxFixnum .rcx ::
        .instr (.shlCl .rax) :: moveResultToTarget target
    else fullCall c target

/-- The tag test, left out when the first argument is known to be a fixnum. -/
def fullCallUnlessFixnum : Code :=
  if (DeriveType.fixnumTypeP c.type1).isSome then []
  else [.instr (.testByte 3 .rax), jump (.cond .nz) .fullCall]

/-- The clause for a known negative shift; `:mov` of the tagged shift where the second argument
is not in a register. -/
def negativeShift (shift : ℤ) : Segments where
  main :=
    (if arg2.flushable then .instr (.process1 arg1 .rax)
      else .instr (.process2 c.arg1 c.arg2 .rax .rcx)) ::
    (fullCallUnlessFixnum c ++
      .instr (.sar (-shift).toNat .rax) :: clearTagBits .rax ::
      ((if (DeriveType.fixnumTypeP c.type1).isSome then [] else [jump .t .exit, .label .exit]) ++
        moveResultToTarget target))
  elsewhere :=
    if (DeriveType.fixnumTypeP c.type1).isSome then []
    else
      [.label .fullCall, .instr (.mov .rax .rdi),
        .instr (if arg2.flushable then .movImm (fixnumize shift) .rsi else .mov .rcx .rsi),
        .instr (.call .ash), jump .t .exit]

/-- The clause for a fixnum that is shifted into an unsigned word. -/
def unboxedShift : Code :=
  .instr (.process2 c.arg1 c.arg2 .rax .rcx) :: unboxFixnum .rax :: unboxFixnum .rcx ::
    .instr (.shlCl .rax) :: .instr (.mov .rax .rdi) :: .instr (.call .rtMakeUnsignedInteger) ::
    moveResultToTarget target

/-- The low word of `(lognot most-positive-fixnum)`. -/
def overflowMask : Word := BitVec.ofInt 64 (-Numbers.mostPositiveFixnum - 1)

/-- The clause for an unsigned integer that is shifted into an unsigned word. -/
def unsignedShift : Segments where
  main :=
    .instr (.process2 c.arg1 c.arg2 .rax .rcx) ::
    (fullCallUnlessFixnum c ++
      [unboxFixnum .rcx, unboxFixnum .rax, .instr (.test .rcx .rcx), jump (.cond .s) .rightShift,
        -- left shift
        .instr (.shlCl .rax), .instr (.movImm overflowMask .rdx), .instr (.test .rax .rdx),
        jump (.cond .nz) .bignum, boxFixnum .rax, jump .t .exit,
        .label .rightShift, .instr (.neg .rcx), .instr (.sarCl .rax), boxFixnum .rax,
        .label .exit] ++
      moveResultToTarget target)
  elsewhere :=
    [.label .bignum, .instr (.mov .rax .rdi), .instr (.call .rtMakeUnsignedBignum),
      jump .t .exit] ++
    if (DeriveType.fixnumTypeP c.type1).isSome then []
    else
      [.label .fullCall, .instr (.mov .rcx .rsi), .instr (.mov .rax .rdi), .instr (.call .ash),
        jump .t .exit]

/-- The clauses of `p2-ash` for arguments that are not both constant. -/
def ashClauses : Segments :=
  let shift := integerConstantValue c.type2
  if shift = some 0 then { main := zeroShift c arg1 arg2 safety target }
  else if integerConstantValue c.type1 = some 0 ∧ (integerTypeP c.type2 ∨ safety = 0) then
    { main := effect arg1 ++ effect arg2 ++ p2Constant 0 target }
  else if (DeriveType.fixnumTypeP c.type1).isSome ∧ (DeriveType.fixnumTypeP c.type2).isSome ∧
      (DeriveType.fixnumTypeP c.resultType).isSome then
    { main := fixnumShift c arg1 arg2 target }
  else
    match shift.filter fun shift => -bitsPerWord < shift ∧ shift < 0 with
    | some shift => negativeShift c arg1 arg2 target shift
    | none =>
      if shift.any (fun shift => 0 < shift ∧ shift < bitsPerWord) ∧
          (DeriveType.fixnumTypeP c.type1).isSome ∧
          subtypepInteger (some 0) (some (2 ^ 64 - 1)) c.resultType then
        { main := unboxedShift c target }
      else if subtypepInteger (some 0) none c.type1 ∧
          subtypepInteger (some (-(bitsPerWord - 1))) (some (bitsPerWord - 1)) c.type2 ∧
          subtypepInteger (some 0) (some (2 ^ 64 - 1)) c.resultType then
        unsignedShift c target
      else { main := fullCall c target }

/-- `p2-ash`; `none` where the compiler itself calls `ASH` and that signals an error. -/
def p2Ash : Option Segments :=
  let arg1 := c.arg1.replace c.type1
  let arg2 := c.arg2.replace c.type2
  match arg1, arg2 with
  | .literal n, .literal m => do
    let value ← clAsh n m
    some { main := p2Constant value target }
  | _, _ =>
    match integerConstantValue c.type1, integerConstantValue c.type2 with
    | some n, some shift => do
      -- both args evaluate to constants
      let value ← clAsh n shift
      some { main := effect arg1 ++ effect arg2 ++ p2Constant value target }
    | _, _ => some (ashClauses c arg1 arg2 safety target)

end Xcl.P2.Ash
