import Xcl.P2.AshWords

/-!
# Inline addition and subtraction

The code that `p2-two-arg-+` and `p2-two-arg--` emit for every target, and the machine that executes
it.

* `Contents.rational`, `ofRational`: registers and the numbers of the kernel;
* `Instr`, `exec`: the instructions, in the operand order of the assembler.
-/

namespace Xcl.P2.Arith

open X86 FlatCode
open Ash (Contents object integerConstantValue)
open Numbers (InFixnumRange Rational)

/-! ## Operations and arguments -/

/-- The functions `two-arg-+` and `two-arg--`. -/
inductive Op
  | plus
  | minus
  deriving DecidableEq, Repr

/-- The operation on words, with the destination first. -/
def Op.word : Op → Word → Word → Word
  | plus, a, b => a + b
  | minus, a, b => a - b

/-- The operation on integers. -/
def Op.apply : Op → ℤ → ℤ → ℤ
  | plus, x, y => x + y
  | minus, x, y => x - y

/-- The kernel function. -/
def Op.kernel : Op → Rational → Rational → Rational
  | plus => Rational.twoArgPlus
  | minus => Rational.twoArgMinus

/-- The arguments of the form, which are evaluated at run time. -/
inductive Operand
  | first
  | second
  deriving DecidableEq, Repr

/-- An integer literal, or another form with the answer of `flushable`. -/
inductive Arg
  | literal (n : ℤ)
  | form (operand : Operand) (flushable : Bool)
  deriving DecidableEq

/-- The integers that the forms return, and what evaluated forms and called functions leave in the
registers that do not hold their results. -/
structure Env where
  value : Operand → ℤ
  trash : Reg64 → Contents

def Env.arg (env : Env) : Arg → ℤ
  | .literal n => n
  | .form operand _ => env.value operand

/-! ## The machine -/

inductive Label
  | fullCall
  | fixOverflow
  | exit
  deriving DecidableEq, Repr

inductive Function
  | twoArg (op : Op)
  | rtFixOverflow
  deriving DecidableEq, Repr

/-- Where the value is wanted. -/
inductive Target
  | register (reg : Reg64)
  /-- `:return`. -/
  | ret
  /-- `:stack`. -/
  | stack
  /-- `nil`. -/
  | ignored
  deriving DecidableEq

/-- The instructions, and the code that evaluates the arguments. -/
inductive Instr
  /-- `process-1-arg`. -/
  | process1 (arg : Arg) (target : Target)
  /-- `process-2-args`. -/
  | process2 (arg1 arg2 : Arg) (reg1 reg2 : Reg64)
  /-- `p2-constant`. -/
  | constant (x : Rational) (target : Target)
  /-- `:add` or `:sub` of a register and a register. -/
  | arith (op : Op) (reg1 reg2 : Reg64)
  /-- `:add` or `:sub` of an immediate and a register. -/
  | arithImm (op : Op) (imm : Word) (reg : Reg64)
  | neg (reg : Reg64)
  | sar (n : ℕ) (reg : Reg64)
  /-- `:test` of an immediate byte and the low byte of a register. -/
  | testByte (imm : BitVec 8) (reg : Reg64)
  | mov (reg1 reg2 : Reg64)
  | movImm (w : Word) (reg : Reg64)
  | push (reg : Reg64)
  | jmp (test : Test) (label : Label)
  | call (f : Function)
  | exit

structure State where
  regs : Reg64 → Contents
  flags : Flags
  stack : List Contents

namespace State

def set (s : State) (r : Reg64) (c : Contents) : State :=
  { s with regs := Function.update s.regs r c }

def push (s : State) (c : Contents) : State := { s with stack := c :: s.stack }

/-- The word in a register. -/
def word (s : State) (r : Reg64) : Option Word :=
  match s.regs r with
  | .word w => some w
  | .bignum _ => none

/-- A value that goes to a target; `:return` leaves it in `rax` and exits. -/
def deliver (s : State) (c : Contents) : Target → Effect Label State
  | .register reg => .next (s.set reg c)
  | .ret => .stop (s.set .rax c)
  | .stack => .next (s.push c)
  | .ignored => .next s

end State

/-- The number of the kernel that the contents are. -/
def Contents.rational : Contents → Option Rational
  | .word w => if fixnump w then some (.fixnum (fixnumValue w)) else none
  | .bignum z => some (.bignum z)

def ofRational : Rational → Option Contents
  | .fixnum n => some (.word (fixnumize n))
  | .bignum z => some (.bignum z)
  | .ratio _ => none

/-- What a function returns. -/
def Function.apply (s : State) : Function → Option Contents
  | twoArg op => do
    let arg1 ← Contents.rational (s.regs .rdi)
    let arg2 ← Contents.rational (s.regs .rsi)
    ofRational (op.kernel arg1 arg2)
  | rtFixOverflow => (s.word .rdi).map fun n => .bignum (n ^^^ 0xc000000000000000).toInt

/-- The flags after an operation on words. -/
def Op.flags (op : Op) (a b : Word) : Flags where
  zf := op.word a b == 0
  sf := (op.word a b).msb
  cf := match op with
    | .plus => decide (2 ^ 64 ≤ a.toNat + b.toNat)
    | .minus => decide (a.toNat < b.toNat)
  of := decide ((op.word a b).toInt ≠ op.apply a.toInt b.toInt)

/-- The destination and the flags after an operation. -/
def State.arith (s : State) (op : Op) (reg : Reg64) (a b : Word) : State :=
  { s.set reg (.word (op.word a b)) with flags := op.flags a b }

/-- One instruction. The flags of `:neg` and of the shift are not read by the code. -/
def exec (env : Env) (i : Instr) (s : State) : Option (Effect Label State) :=
  match i with
  | .process1 arg target =>
    some ({ s with regs := env.trash }.deliver (object (env.arg arg)) target)
  | .process2 arg1 arg2 reg1 reg2 =>
    some (.next { s with
      regs := Function.update (Function.update env.trash reg1 (object (env.arg arg1)))
        reg2 (object (env.arg arg2)) })
  | .constant x target => (ofRational x).map fun c => s.deliver c target
  | .arith op reg1 reg2 => do
    let w1 ← s.word reg1
    let w2 ← s.word reg2
    some (.next (s.arith op reg2 w2 w1))
  | .arithImm op imm reg => (s.word reg).map fun w => .next (s.arith op reg w imm)
  | .neg reg => (s.word reg).map fun w => .next (s.set reg (.word (-w)))
  | .sar n reg => (s.word reg).map fun w => .next (s.set reg (.word (w.sshiftRight (n % 64))))
  | .testByte imm reg => some (.next { s with flags := testFlags (s.regs reg).lowByte imm })
  | .mov reg1 reg2 => some (.next (s.set reg2 (s.regs reg1)))
  | .movImm w reg => some (.next (s.set reg (.word w)))
  | .push reg => some (.next (s.push (s.regs reg)))
  | .jmp test label => some (if test.holds s.flags then .jump label s else .next s)
  | .call f =>
    (f.apply s).map fun c => .next { s with regs := Function.update env.trash .rax c }
  | .exit => some (.stop s)

/-! ## Code generation -/

abbrev Code := List (Item Instr Label)

structure Segments where
  main : Code
  elsewhere : Code := []

/-- The code of a function: the main segment goes on after the code for the form, which is left
out, and ends before what is elsewhere. -/
def Segments.code (segments : Segments) : Code :=
  segments.main ++ .instr .exit :: segments.elsewhere

/-- The register in which the value is computed. -/
def Target.reg : Target → Reg64
  | register reg => reg
  | _ => .rax

def moveResultToTarget : Target → Code
  | .register .rax => []
  | .register reg => [.instr (.mov .rax reg)]
  | .ret => [.instr .exit]
  | .stack => [.instr (.push .rax)]
  | .ignored => []

/-- `(unless (eq reg target) (move-result-to-target target))` -/
def moveUnlessTarget (target : Target) : Code :=
  if target = .register target.reg then [] else moveResultToTarget target

/-- A move, unless the registers are the same. -/
def move (reg1 reg2 : Reg64) : Code := if reg1 = reg2 then [] else [.instr (.mov reg1 reg2)]

def jump (test : Test) (label : Label) : Item Instr Label := .instr (.jmp test label)

/-- The names of types that `numeric-but-not-fixnum-type-p` asks `subtypep` for. -/
inductive TypeName
  | float
  | ratio
  | bignum
  | complex
  deriving DecidableEq, Repr

def numericButNotFixnumTypeP (subtypep : DeriveType.DerivedType → TypeName → Bool) :
    DeriveType.DerivedType → Bool
  | .unknown => false
  | type =>
    if subtypep type .float then true
    else if subtypep type .ratio then true
    else if subtypep type .bignum then true
    else subtypep type .complex

def fixnumTyped (type : DeriveType.DerivedType) : Bool := (DeriveType.fixnumTypeP type).isSome

/-- `(two-arg-+ arg1 arg2)` or `(two-arg-- arg1 arg2)` with the derived types. -/
structure Call where
  arg1 : Arg
  arg2 : Arg
  type1 : DeriveType.DerivedType
  type2 : DeriveType.DerivedType
  resultType : DeriveType.DerivedType

def Arg.replace (type : DeriveType.DerivedType) (arg : Arg) : Arg :=
  match integerConstantValue type with
  | some value =>
    match arg with
    | .literal n => if InFixnumRange n then .literal n else .literal value
    | .form operand flushable => if flushable then .literal value else .form operand flushable
  | none => arg

/-- `(fixnump arg)` -/
def Arg.fixnump : Arg → Bool
  | .literal n => decide (InFixnumRange n)
  | .form _ _ => false

/-- A fixnum that is an immediate operand when it is tagged. -/
def Arg.immediate : Arg → Option ℤ
  | .literal n => if InFixnumRange n ∧ -2 ^ 31 ≤ n * 4 ∧ n * 4 < 2 ^ 31 then some n else none
  | .form _ _ => none

section Clauses

variable (op : Op) (arg1 arg2 : Arg) (type1 type2 resultType : DeriveType.DerivedType)
  (target : Target)

/-- `two-arg-+` or `two-arg--` of two literals, by the compiler. -/
def p2Constant (n m : ℤ) : Code :=
  [.instr (.constant (op.kernel (Numbers.makeInteger n) (Numbers.makeInteger m)) target)]

/-- The call of the kernel function. -/
def fullCall : Code :=
  .instr (.process2 arg1 arg2 .rdi .rsi) :: .instr (.call (.twoArg op)) ::
    moveResultToTarget target

def tagTest (type : DeriveType.DerivedType) (reg : Reg64) : Code :=
  if fixnumTyped type then [] else [.instr (.testByte 3 reg), jump (.cond .nz) .fullCall]

def overflowTest : Code :=
  if fixnumTyped resultType then [] else [jump (.cond .o) .fixOverflow]

/-- The code at `FIX-OVERFLOW`. -/
def fixOverflow (reg : Reg64) : Code :=
  if fixnumTyped resultType then []
  else
    -- unbox
    .label .fixOverflow :: .instr (.sar 2 reg) ::
      (move reg .rdi ++ .instr (.call .rtFixOverflow) :: move .rax reg ++ [jump .t .exit])

/-- The clause for a second argument that is an immediate operand. -/
def smallConstant (n : ℤ) : Segments where
  main :=
    .instr (.process1 arg1 (.register target.reg)) ::
      (tagTest type1 target.reg ++ .instr (.arithImm op (fixnumize n) target.reg) ::
        overflowTest resultType ++ .label .exit :: moveUnlessTarget target)
  elsewhere :=
    (if fixnumTyped type1 then []
      else
        .label .fullCall :: move target.reg .rdi ++ .instr (.movImm (fixnumize n) .rsi) ::
          .instr (.call (.twoArg op)) :: move .rax target.reg ++ [jump .t .exit]) ++
      fixOverflow resultType target.reg

/-- The clause for arguments that may be any numbers. -/
def general : Segments where
  main :=
    .instr (.process2 arg1 arg2 .rax .rdx) ::
      (tagTest type1 .rax ++ tagTest type2 .rdx ++ .instr (.arith op .rdx .rax) ::
        overflowTest resultType ++ .label .exit :: moveResultToTarget target)
  elsewhere :=
    (if fixnumTyped type1 && fixnumTyped type2 then []
      else
        [.label .fullCall, .instr (.mov .rdx .rsi), .instr (.mov .rax .rdi),
          .instr (.call (.twoArg op)), jump .t .exit]) ++
      fixOverflow resultType .rax

/-- The other register of the clause for fixnums. -/
def otherRegister (reg : Reg64) : Reg64 := if reg = .rax then .rdx else .rax

end Clauses

section

variable (subtypep : DeriveType.DerivedType → TypeName → Bool)

/-- The clauses of `p2-two-arg-+`, where a fixnum has become the second argument; `args` are the
forms that are processed. -/
def plusClauses (args : Arg × Arg) (arg1 arg2 : Arg)
    (type1 type2 resultType : DeriveType.DerivedType) (target : Target) : Segments :=
  if arg2 = .literal 0 then { main := [.instr (.process1 arg1 target)] }
  else if numericButNotFixnumTypeP subtypep type1 || numericButNotFixnumTypeP subtypep type2 then
    { main := fullCall .plus args.1 args.2 target }
  else
    match arg2.immediate with
    | some n => smallConstant .plus arg1 type1 resultType target n
    | none =>
      if fixnumTyped type1 && fixnumTyped type2 && fixnumTyped resultType then
        let reg2 := target.reg
        let reg1 := otherRegister reg2
        { main :=
            .instr (.process2 args.1 args.2 reg1 reg2) :: .instr (.arith .plus reg1 reg2) ::
              moveUnlessTarget target }
      else general .plus args.1 args.2 type1 type2 resultType target

/-- `p2-two-arg-+` -/
def p2TwoArgPlus (c : Call) (target : Target) : Segments :=
  let arg1 := c.arg1.replace c.type1
  let arg2 := c.arg2.replace c.type2
  match arg1, arg2 with
  | .literal n, .literal m => { main := p2Constant .plus target n m }
  | _, _ =>
    if arg1.fixnump then
      plusClauses subtypep (arg2, arg1) arg2 arg1 c.type2 c.type1 c.resultType target
    else plusClauses subtypep (c.arg1, c.arg2) arg1 arg2 c.type1 c.type2 c.resultType target

/-- `p2-two-arg--` -/
def p2TwoArgMinus (c : Call) (target : Target) : Segments :=
  let arg1 := c.arg1.replace c.type1
  let arg2 := c.arg2.replace c.type2
  match arg1, arg2 with
  | .literal n, .literal m => { main := p2Constant .minus target n m }
  | _, _ =>
    if arg2 = .literal 0 then { main := [.instr (.process1 arg1 target)] }
    else if arg1 = .literal 0 ∧ fixnumTyped c.type2 ∧ fixnumTyped c.resultType then
      { main :=
          .instr (.process1 arg2 (.register target.reg)) :: .instr (.neg target.reg) ::
            moveUnlessTarget target }
    else if numericButNotFixnumTypeP subtypep c.type1 ||
        numericButNotFixnumTypeP subtypep c.type2 then
      { main := fullCall .minus c.arg1 c.arg2 target }
    else
      match arg2.immediate with
      | some n => smallConstant .minus arg1 c.type1 c.resultType target n
      | none =>
        if fixnumTyped c.type1 && fixnumTyped c.type2 && fixnumTyped c.resultType then
          let reg1 := target.reg
          let reg2 := otherRegister reg1
          { main :=
              .instr (.process2 c.arg1 c.arg2 reg1 reg2) :: .instr (.arith .minus reg2 reg1) ::
                moveUnlessTarget target }
        else general .minus c.arg1 c.arg2 c.type1 c.type2 c.resultType target

/-- The handler of the function. -/
def p2TwoArg : Op → Call → Target → Segments
  | .plus => p2TwoArgPlus subtypep
  | .minus => p2TwoArgMinus subtypep

end

end Xcl.P2.Arith
