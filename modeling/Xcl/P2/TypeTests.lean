import Xcl.Lib.FlatCode
import Xcl.P2.RequireType

/-!
# Tests of compiled code

The code that the test handlers emit for the tests of `IF`, `AND` and `OR`: the argument form is
evaluated, and control goes to a label or on to the code that follows.

* `Predicate`, `Predicate.holds`: the predicates of the kernel;
* `ArgType`, `Arg`: what the compiler knows about the argument form.
-/

namespace Xcl.P2.TypeTest

open X86 (Reg64 Word testFlags)
open FlatCode

/-! ## Predicates -/

inductive Predicate
  | consp | listp | symbolp | atom | fixnump | integerp | numberp | functionp | stringp | vectorp
  | simpleVectorP | plusp | zerop
  deriving DecidableEq, Repr

structure Comparisons where
  positive : Object → Bool
  zero : Object → Bool

/-- `plusp` of the kernel; `none` is a type error. -/
def kernelPlusp (c : Comparisons) : Object → Option Bool
  | .fixnum n => some (0 < n)
  | .typed .bignum n _ => some (0 < n)
  | o =>
    if o.widetag.any ([Widetag.ratio, .singleFloat, .doubleFloat].contains ·) then
      some (c.positive o)
    else none

/-- `zerop` of the kernel. -/
def kernelZerop (c : Comparisons) : Object → Option Bool
  | .fixnum n => some (n = 0)
  | .typed .bignum _ _ => some false
  | .typed .ratio _ _ => some false
  | o =>
    if o.widetag.any ([Widetag.singleFloat, .doubleFloat, .complex].contains ·) then
      some (c.zero o)
    else none

def Predicate.holds (c : Comparisons) : Predicate → Object → Option Bool
  | .consp, o => some (o.typep .cons)
  | .listp, o => some (o == .nil || o.typep .cons)
  | .symbolp, o => some (o.typep .symbol)
  | .atom, o => some (!o.typep .cons)
  | .fixnump, o => some (o.typep .fixnum)
  | .integerp, o => some (o.typep .integer)
  | .numberp, o => some (o.typep .number)
  | .functionp, o => some (o.typep .function)
  | .stringp, o => some (o.typep .string)
  | .vectorp, o => some (o.typep .vector)
  | .simpleVectorP, o => some (o.typep .simpleVector)
  | .plusp, o => kernelPlusp c o
  | .zerop, o => kernelZerop c o

/-! ## The argument form -/

/-- The derived type of the argument form, as far as the handlers look at it. -/
inductive ArgType
  /-- The list `(INTEGER low high)`, `none` for `*`. -/
  | integer (low high : Option ℤ)
  /-- The symbol `SYMBOL`. -/
  | symbol
  /-- The keyword `:unknown`. -/
  | unknown
  /-- Another type, with the answer of `subtypep` for it and `INTEGER`. -/
  | other (subtypepInteger : Bool)
  deriving DecidableEq, Repr

/-- The values of a type, as far as its name says. -/
def ArgType.Has : ArgType → Object → Prop
  | .integer low high, o => ∃ n, o.integer = some n ∧ (∀ a ∈ low, a ≤ n) ∧ ∀ b ∈ high, n ≤ b
  | .symbol, o => o.typep .symbol = true
  | .unknown, _ => True
  | .other subtypepInteger, o => subtypepInteger = true → o.typep .integer = true

def fixnumBound (n : ℤ) : Bool := -2 ^ 61 ≤ n && n < 2 ^ 61

def ArgType.fixnumTypeP : ArgType → Bool
  | .integer (some low) (some high) => fixnumBound low && fixnumBound high
  | _ => false

/-- `(and (neq type :unknown) (subtypep type 'INTEGER))` -/
def ArgType.subtypepInteger : ArgType → Bool
  | .integer _ _ => true
  | .other subtypepInteger => subtypepInteger
  | _ => false

inductive Arg
  | varRef (register : Option Reg64)
  | form
  deriving DecidableEq, Repr

def Arg.register : Arg → Option Reg64
  | varRef register => register
  | form => none

/-! ## The machine -/

/-- The labels of a test. The code that follows the test is at `next`; `error` is the error that a
kernel function signals. -/
inductive Label
  | ifTrue | ifFalse | next | error | exit | fullCall
  deriving DecidableEq, Repr

inductive Instr
  /-- `process-1-arg` of the argument form into `rax`. -/
  | evaluate
  /-- `p2` of the argument form for effect. -/
  | effect
  | check (i : CheckInstr)
  | mov (reg1 reg2 : Reg64)
  /-- `:test` of the low bytes of two registers. -/
  | testb (reg1 reg2 : Reg64)
  | jump (test : Test) (label : Label)
  /-- The call of a kernel function, with its argument in a register. -/
  | callPlusp (arg : Reg64)
  | callZerop (arg : Reg64)

/-- The processor, and the side effects of argument forms so far. -/
structure Machine (E : Type) where
  cpu : X86.State
  events : List E

structure Env (E : Type) where
  nilWord : Word
  tWord : Word
  functionWord : Word
  widetagOffset : ℤ
  comparisons : Comparisons
  value : Object
  word : Word
  events : List E
  evaluated : X86.State
  called : X86.State

variable {E : Type}

def Machine.withCpu (m : Machine E) (cpu : X86.State) : Machine E := { m with cpu := cpu }

/-- The result of a call of a kernel function. -/
def callResult (env : Env E) (m : Machine E) (arg : Reg64) (result : Option Bool)
    (word : Bool → Word) : Option (Effect Label (Machine E)) :=
  if m.cpu.regs arg = env.word then
    match result with
    | some b => some (.next (m.withCpu (env.called.set .rax (word b))))
    | none => some (.jump .error m)
  else none

def exec (env : Env E) (i : Instr) (m : Machine E) : Option (Effect Label (Machine E)) :=
  match i with
  | .evaluate =>
    some (.next ⟨env.evaluated.set .rax env.word, m.events ++ env.events⟩)
  | .effect => some (.next ⟨env.evaluated, m.events ++ env.events⟩)
  | .check i =>
    match execCheck m.cpu i with
    | .reached cpu => some (.next (m.withCpu cpu))
    | .branched _ _ => none
  | .mov reg1 reg2 => some (.next (m.withCpu (m.cpu.set reg2 (m.cpu.regs reg1))))
  | .testb reg1 reg2 =>
    some (.next (m.withCpu (m.cpu.setFlags
      (testFlags ((m.cpu.regs reg2).truncate 8) ((m.cpu.regs reg1).truncate 8)))))
  | .jump test label => some (if test.holds m.cpu.flags then .jump label m else .next m)
  | .callPlusp arg =>
    callResult env m arg (kernelPlusp env.comparisons env.value) fun b =>
      setLowByte (env.called.regs .rax) (if b then 1 else 0)
  | .callZerop arg =>
    callResult env m arg (kernelZerop env.comparisons env.value) fun b =>
      if b then env.tWord else env.nilWord

/-! ## The handlers -/

abbrev Code := List (Item Instr Label)

structure Segments where
  main : Code
  elsewhere : Code := []

structure Labels where
  ifTrue : Bool
  ifFalse : Bool
  deriving DecidableEq, Repr

/-- Where control goes after the test. -/
def Labels.destination (labels : Labels) : Option Bool → Label
  | some true => if labels.ifTrue then .ifTrue else .next
  | some false => if labels.ifFalse then .ifFalse else .next
  | none => .error

def jump (test : Test) (label : Label) : Item Instr Label := .instr (.jump test label)

/-- The code of the test, followed by the code at `next` and by what is elsewhere. -/
def Segments.code (segments : Segments) : Code :=
  segments.main ++ jump .t .next :: segments.elsewhere

/-- A jump to `label-if-true` when that is given. -/
def Labels.whenTrue (labels : Labels) (test : Test) : Code :=
  if labels.ifTrue then [jump test .ifTrue] else []

/-- A jump to `label-if-false` when that is given. -/
def Labels.whenFalse (labels : Labels) (test : Test) : Code :=
  if labels.ifFalse then [jump test .ifFalse] else []

def check (i : CheckInstr) : Item Instr Label := .instr (.check i)

/-- `:compare-immediate` of `NIL` and `rax` -/
def compareNil (nilWord : Word) : Item Instr Label := check (.base (.cmpImm nilWord .rax))

/-- The comparison of the lowtag of `rax`, which is lost. -/
def compareLowtag (lowtag : BitVec 8) : Code :=
  [check (.andb lowtagMask .rax), check (.cmpb lowtag .rax)]

def testTag (reg : Reg64) : Item Instr Label := check (.base (.test fixnumTagMask reg))

/-- The test of the lowtag of `rax` in `dl`. -/
def testTypedObject (labelIfFalse : Label) : Code :=
  [check (.movb .rax .rdx), check (.andb lowtagMask .rdx), check (.cmpb typedObjectLowtag .rdx),
    jump (.cond .ne) labelIfFalse]

variable (env : Env E) (type : ArgType) (register : Option Reg64) (labels : Labels)

def p2TestWidetagBit (bit : ℕ) (labelIfFalse : Label) : Code :=
  testTypedObject labelIfFalse ++
    [check (.testqMem (BitVec.ofNat 64 bit) (widetagDisplacement env.widetagOffset) .rax),
      jump (.cond .z) labelIfFalse]

def p2TestWidetag (widetag : Widetag) (labelIfFalse : Label) : Code :=
  testTypedObject labelIfFalse ++
    [check (.cmpqMem (BitVec.ofNat 64 widetag.code) (widetagDisplacement env.widetagOffset) .rax),
      jump (.cond .nz) labelIfFalse]

def testBit (bit : ℕ) : Segments where
  main := .instr .evaluate :: p2TestWidetagBit env bit .ifFalse

def p2TestSimpleVectorP : Segments where
  main := .instr .evaluate :: p2TestWidetag env .simpleVector .ifFalse

def p2TestVectorp : Segments := testBit env widetagVectorBit

def p2TestFunctionp : Segments := testBit env widetagFunctionBit

def p2TestStringp : Segments := testBit env widetagStringBit

/-- The handlers whose predicate is true of the fixnums and of other objects. -/
def testFixnumOr (code : Code) : Segments where
  main := .instr .evaluate :: testTag .rax :: jump (.cond .e) .exit :: (code ++ [.label .exit])

def p2TestNumberp : Segments := testFixnumOr (p2TestWidetagBit env widetagNumberBit .ifFalse)

def p2TestIntegerp : Segments := testFixnumOr (p2TestWidetag env .bignum .ifFalse)

def p2TestFixnump : Segments where
  main :=
    if type.fixnumTypeP then labels.whenTrue .t
    else
      match register with
      | some reg => testTag reg :: (labels.whenTrue (.cond .e) ++ labels.whenFalse (.cond .ne))
      | none =>
        .instr .evaluate :: testTag .rax ::
          (labels.whenTrue (.cond .e) ++ labels.whenFalse (.cond .ne))

def p2TestConsp : Segments where
  main :=
    .instr .evaluate :: compareNil env.nilWord ::
      jump (.cond .e) (if labels.ifFalse then .ifFalse else .exit) ::
      (compareLowtag listLowtag ++ labels.whenTrue (.cond .e) ++ labels.whenFalse (.cond .ne) ++
        [.label .exit])

def p2TestListp : Segments where
  main :=
    .instr .evaluate ::
      (compareLowtag listLowtag ++ labels.whenTrue (.cond .e) ++ labels.whenFalse (.cond .ne) ++
        [.label .exit])

def p2TestSymbolp : Segments where
  main :=
    if type = .symbol then
      .instr .effect :: labels.whenTrue .t
    else
      .instr .evaluate :: compareNil env.nilWord ::
        jump (.cond .e) (if labels.ifTrue then .ifTrue else .exit) ::
        (compareLowtag symbolLowtag ++ labels.whenTrue (.cond .e) ++
          labels.whenFalse (.cond .ne) ++ [.label .exit])

def p2TestAtom : Segments where
  main :=
    .instr .evaluate :: compareNil env.nilWord :: jump (.cond .e) .exit ::
      (compareLowtag listLowtag ++ [jump (.cond .e) .ifFalse, .label .exit])

def p2TestPlusp : Segments :=
  if type = .integer (some 0) (some 1) then
    { main := .instr .evaluate :: .instr (.testb .rax .rax) ::
        (labels.whenTrue (.cond .nz) ++ labels.whenFalse (.cond .z)) }
  else
    { main := .instr .evaluate ::
        ((if type.fixnumTypeP then [] else [testTag .rax, jump (.cond .nz) .fullCall]) ++
          check (.testq .rax .rax) ::
          (labels.whenTrue (.cond .g) ++ labels.whenFalse (.cond .ng) ++
            if type.fixnumTypeP then [] else [.label .exit]))
      elsewhere :=
        if type.fixnumTypeP then []
        else
          .label .fullCall :: .instr (.mov .rax .rdi) :: .instr (.callPlusp .rdi) ::
            .instr (.testb .rax .rax) ::
            (labels.whenTrue (.cond .nz) ++ labels.whenFalse (.cond .z) ++ [jump .t .exit]) }

/-- How a function of the kernel is called. -/
inductive Convention
  | fast
  | thread (threadRegister : Reg64)
  | currentThread
  deriving DecidableEq

/-- The call of `ZEROP`. -/
def callZerop : Convention → Code
  | .fast => [.instr (.mov .rax .rdi), .instr (.callZerop .rdi)]
  | .thread threadRegister =>
    [.instr (.mov .rax .rdx), check (.base (.mov env.functionWord .rsi)),
      .instr (.mov threadRegister .rdi), .instr (.callZerop .rdx)]
  | .currentThread =>
    [.instr (.mov .rax .rsi), check (.base (.mov env.functionWord .rdi)),
      .instr (.callZerop .rsi)]

def p2TestZerop (convention : Convention) : Segments where
  main :=
    .instr .evaluate :: check (.testq .rax .rax) ::
      if type.subtypepInteger then labels.whenTrue (.cond .z) ++ labels.whenFalse (.cond .nz)
      else
        labels.whenTrue (.cond .z) ++ jump (.cond .z) .exit ::
          (callZerop env convention ++ compareNil env.nilWord ::
            (labels.whenTrue (.cond .ne) ++ labels.whenFalse (.cond .e) ++ [.label .exit]))

/-- The handlers that are given a label for a failed test only. -/
def Predicate.oneLabel : Predicate → Bool
  | .atom | .integerp | .numberp | .functionp | .stringp | .vectorp | .simpleVectorP => true
  | _ => false

/-- The labels that a handler can be given: at least one, and no `label-if-true` where it has no
parameter for it. -/
def Predicate.accepts (predicate : Predicate) (labels : Labels) : Bool :=
  if predicate.oneLabel then !labels.ifTrue && labels.ifFalse
  else labels.ifTrue || labels.ifFalse

/-- The code that the handler of a predicate emits. -/
def Predicate.code (convention : Convention) : Predicate → Segments
  | .consp => p2TestConsp env labels
  | .listp => p2TestListp labels
  | .symbolp => p2TestSymbolp env type labels
  | .atom => p2TestAtom env
  | .fixnump => p2TestFixnump type register labels
  | .integerp => p2TestIntegerp env
  | .numberp => p2TestNumberp env
  | .functionp => p2TestFunctionp env
  | .stringp => p2TestStringp env
  | .vectorp => p2TestVectorp env
  | .simpleVectorP => p2TestSimpleVectorP env
  | .plusp => p2TestPlusp type labels
  | .zerop => p2TestZerop env type labels convention

end Xcl.P2.TypeTest
