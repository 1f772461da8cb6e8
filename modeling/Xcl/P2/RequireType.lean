import Xcl.P2.BoundsCheck

/-!
# Type checks of compiled code

The code that the `p2-require-` handlers emit for a value in `rax`, and the type that they record
for the checked variable.

* `Widetag`, `Object`, `Represents`: Lisp values and their words;
* **`check_right_iff`**: which checks are right about which values.
-/

namespace Xcl.P2

open X86

/-! ## Values -/

inductive Widetag
  | package | hashTable | specialOperator | thread | environment | structureObject | randomState
  | pathname | symbolMacro | structureSlotDefinition | standardMethod | layout | unboundMarker
  | serverSocket | restart | readtable | mutex | conditionVariable | logicalPathname
  | bignum | ratio | singleFloat | doubleFloat | complex
  | arrayT | simpleArrayT
  | vectorT | vectorUb8 | vectorUb16 | vectorUb32 | bitVector
  | simpleVector | simpleArrayUb8 | simpleArrayUb16 | simpleArrayUb32 | simpleBitVector
  | string | nilVector | simpleString | simpleNilVector
  | standardObject | condition
  | builtInClass | structureClass | standardClass | funcallableStandardClass
  | function | primitive | closure | autoload | macroObject | funcallableStandardObject
  | standardGenericFunction | compiledClosure | compiledFunction
  | ansiStream | stringInputStream | stringOutputStream | fileStream | broadcastStream
  | twoWayStream | socketStream | concatenatedStream | echoStream | synonymStream
  | slimeInputStream | slimeOutputStream
  deriving DecidableEq, Repr

def widetagArrayBit : ℕ := 64
def widetagSimpleArrayBit : ℕ := 128
def widetagVectorBit : ℕ := 256
def widetagInstanceBit : ℕ := 512
def widetagClassBit : ℕ := 1024
def widetagFunctionBit : ℕ := 2048
def widetagAnsiStreamBit : ℕ := 4096
def widetagNumberBit : ℕ := 8192
def widetagStringBit : ℕ := 16384
def widetagSimpleStringBit : ℕ := 32768

def widetagVector : ℕ := widetagArrayBit + widetagVectorBit

/-- The codes of `lisp.hpp`. -/
def Widetag.code : Widetag → ℕ
  | .package => 14
  | .hashTable => 15
  | .specialOperator => 17
  | .thread => 18
  | .environment => 20
  | .structureObject => 21
  | .randomState => 25
  | .pathname => 27
  | .symbolMacro => 33
  | .structureSlotDefinition => 34
  | .standardMethod => 37
  | .layout => 39
  | .unboundMarker => 41
  | .serverSocket => 45
  | .restart => 49
  | .readtable => 50
  | .mutex => 52
  | .conditionVariable => 53
  | .logicalPathname => 54
  | .bignum => widetagNumberBit + 1
  | .ratio => widetagNumberBit + 2
  | .singleFloat => widetagNumberBit + 3
  | .doubleFloat => widetagNumberBit + 4
  | .complex => widetagNumberBit + 5
  | .arrayT => widetagArrayBit + 1
  | .simpleArrayT => widetagArrayBit + widetagSimpleArrayBit + 1
  | .vectorT => widetagVector + 2
  | .vectorUb8 => widetagVector + 3
  | .vectorUb16 => widetagVector + 4
  | .vectorUb32 => widetagVector + 5
  | .bitVector => widetagVector + 6
  | .simpleVector => widetagVector + widetagSimpleArrayBit + 2
  | .simpleArrayUb8 => widetagVector + widetagSimpleArrayBit + 3
  | .simpleArrayUb16 => widetagVector + widetagSimpleArrayBit + 4
  | .simpleArrayUb32 => widetagVector + widetagSimpleArrayBit + 5
  | .simpleBitVector => widetagVector + widetagSimpleArrayBit + 6
  | .string => widetagVector + widetagStringBit
  | .nilVector => widetagVector + widetagStringBit + 1
  | .simpleString =>
    widetagVector + widetagStringBit + widetagSimpleArrayBit + widetagSimpleStringBit
  | .simpleNilVector =>
    widetagVector + widetagStringBit + widetagSimpleArrayBit + widetagSimpleStringBit + 1
  | .standardObject => widetagInstanceBit + 1
  | .condition => widetagInstanceBit + 2
  | .builtInClass => widetagInstanceBit + widetagClassBit + 1
  | .structureClass => widetagInstanceBit + widetagClassBit + 2
  | .standardClass => widetagInstanceBit + widetagClassBit + 3
  | .funcallableStandardClass => widetagInstanceBit + widetagClassBit + 4
  | .function => widetagFunctionBit + 1
  | .primitive => widetagFunctionBit + 2
  | .closure => widetagFunctionBit + 3
  | .autoload => widetagFunctionBit + 4
  | .macroObject => widetagFunctionBit + 5
  | .funcallableStandardObject => widetagFunctionBit + widetagInstanceBit + 6
  | .standardGenericFunction => widetagFunctionBit + widetagInstanceBit + 7
  | .compiledClosure => widetagFunctionBit + 8
  | .compiledFunction => widetagFunctionBit + 9
  | .ansiStream => widetagAnsiStreamBit
  | .stringInputStream => widetagAnsiStreamBit + 1
  | .stringOutputStream => widetagAnsiStreamBit + 2
  | .fileStream => widetagAnsiStreamBit + 3
  | .broadcastStream => widetagAnsiStreamBit + 4
  | .twoWayStream => widetagAnsiStreamBit + 5
  | .socketStream => widetagAnsiStreamBit + 6
  | .concatenatedStream => widetagAnsiStreamBit + 7
  | .echoStream => widetagAnsiStreamBit + 8
  | .synonymStream => widetagAnsiStreamBit + 9
  | .slimeInputStream => widetagAnsiStreamBit + 10
  | .slimeOutputStream => widetagAnsiStreamBit + 11

inductive Object
  | fixnum (n : ℤ)
  | nil
  | cons
  | character
  | symbol
  | typed (widetag : Widetag) (value : ℤ) (types : List String)
  deriving DecidableEq, Repr

def Object.widetag : Object → Option Widetag
  | .typed widetag _ _ => some widetag
  | _ => none

/-- The value of an integer. -/
def Object.integer : Object → Option ℤ
  | .fixnum n => some n
  | .typed .bignum n _ => some n
  | _ => none

/-- The displacement of the widetag of a typed object from its tagged word. -/
def widetagDisplacement (widetagOffset : ℤ) : ℤ := widetagOffset - 2

/-- The word `v` stands for a value: by its lowtag, and by the widetag in memory for a typed
object. `nilWord` is the word of `NIL`, which is tagged as a cons. -/
def Represents (nilWord : Word) (widetagOffset : ℤ) (mem : Word → Word) (v : Word) :
    Object → Prop
  | .fixnum n => -2 ^ 61 ≤ n ∧ n < 2 ^ 61 ∧ v = fixnumize n
  | .nil => v = nilWord
  | .cons => v.toNat % 8 = 1 ∧ v ≠ nilWord
  | .character => v.toNat % 8 = 6
  | .symbol => v.toNat % 8 = 7
  | .typed widetag value _ =>
    v.toNat % 8 = 2 ∧
      mem (v + BitVec.ofInt 64 (widetagDisplacement widetagOffset)) = BitVec.ofNat 64 widetag.code ∧
      (widetag = .bignum → value < -2 ^ 61 ∨ 2 ^ 61 ≤ value)

/-! ## Types -/

/-- The types that are checked or recorded. -/
inductive TypeName
  | cons | fixnum | integer | number | symbol | function | hashTable | vector | simpleBitVector
  | string | simpleString | simpleVector
  /-- `(INTEGER low high)`, `none` for `*`. -/
  | range (low : ℤ) (high : Option ℤ)
  | structure (name : String)
  deriving DecidableEq, Repr

def numberWidetags : List Widetag := [.bignum, .ratio, .singleFloat, .doubleFloat, .complex]

def functionWidetags : List Widetag :=
  [.function, .primitive, .closure, .autoload, .macroObject, .funcallableStandardObject,
    .standardGenericFunction, .compiledClosure, .compiledFunction]

def stringWidetags : List Widetag := [.string, .nilVector, .simpleString, .simpleNilVector]

def vectorWidetags : List Widetag :=
  [.vectorT, .vectorUb8, .vectorUb16, .vectorUb32, .bitVector, .simpleVector, .simpleArrayUb8,
    .simpleArrayUb16, .simpleArrayUb32, .simpleBitVector] ++ stringWidetags

/-- The values of a type. -/
def Object.typep (o : Object) : TypeName → Bool
  | .cons => o == .cons
  | .fixnum => match o with
    | .fixnum _ => true
    | _ => false
  | .integer => o.integer.isSome
  | .number => o.integer.isSome || o.widetag.any (numberWidetags.contains ·)
  | .symbol => o == .nil || o == .symbol
  | .function => o.widetag.any (functionWidetags.contains ·)
  | .hashTable => o.widetag == some .hashTable
  | .vector => o.widetag.any (vectorWidetags.contains ·)
  | .simpleBitVector => o.widetag == some .simpleBitVector
  | .string => o.widetag.any (stringWidetags.contains ·)
  | .simpleString => o.widetag == some .simpleString || o.widetag == some .simpleNilVector
  | .simpleVector => o.widetag == some .simpleVector
  | .range low high => o.integer.any fun n => low ≤ n && high.all (n ≤ ·)
  | .structure name => match o with
    | .typed .structureObject _ types => types.contains name
    | _ => false

/-! ## The emitted code -/

/-- The labels of a check. `EXIT` stands at its end. -/
inductive CheckLabel
  | error | exit | fullCall
  deriving DecidableEq, Repr

inductive CheckInstr
  | base (i : Instr CheckLabel)
  /-- `:mov` of the low byte of a register. -/
  | movb (reg1 reg2 : Reg64)
  | andb (imm : BitVec 8) (reg : Reg64)
  | cmpb (imm : BitVec 8) (reg : Reg64)
  | testq (reg1 reg2 : Reg64)
  | cmpqMem (imm : Word) (displacement : ℤ) (base : Reg64)
  | testqMem (imm : Word) (displacement : ℤ) (base : Reg64)
  /-- A full call in the place of a check. -/
  | call

def setLowByte (w : Word) (b : BitVec 8) : Word := (w &&& ~~~255) ||| b.setWidth 64

/-- The flags after the comparison of two bytes. -/
def subFlags8 (a b : BitVec 8) : Flags where
  zf := a == b
  sf := (a - b).msb
  cf := decide (a.toNat < b.toNat)
  of := decide ((a - b).toInt ≠ a.toInt - b.toInt)

/-- The flags after the conjunction of two words. -/
def testFlags64 (a b : Word) : Flags where
  zf := a &&& b == 0
  sf := (a &&& b).msb
  cf := false
  of := false

def execCheck (s : State) : CheckInstr → Outcome CheckLabel
  | .base i => exec s i
  | .movb reg1 reg2 =>
    .reached (s.set reg2 (setLowByte (s.regs reg2) ((s.regs reg1).truncate 8)))
  | .andb imm reg =>
    let b := (s.regs reg).truncate 8 &&& imm
    .reached ((s.set reg (setLowByte (s.regs reg) b)).setFlags (testFlags b b))
  | .cmpb imm reg => .reached (s.setFlags (subFlags8 ((s.regs reg).truncate 8) imm))
  | .testq reg1 reg2 => .reached (s.setFlags (testFlags64 (s.regs reg2) (s.regs reg1)))
  | .cmpqMem imm displacement base =>
    .reached (s.setFlags (subFlags (s.mem (s.regs base + BitVec.ofInt 64 displacement)) imm))
  | .testqMem imm displacement base =>
    .reached (s.setFlags (testFlags64 (s.mem (s.regs base + BitVec.ofInt 64 displacement)) imm))
  | .call => .branched .fullCall s

def runCheck (s : State) : List CheckInstr → Outcome CheckLabel
  | [] => .reached s
  | i :: code =>
    match execCheck s i with
    | .reached s => runCheck s code
    | .branched label s => .branched label s

structure Check where
  code : List CheckInstr
  kernel : Object → Bool

/-- Control passes a check of the value `o`. -/
def passes (s : State) (check : Check) (o : Object) : Bool :=
  match runCheck s check.code with
  | .reached _ => true
  | .branched .exit _ => true
  | .branched .error _ => false
  | .branched .fullCall _ => check.kernel o

/-! ## The handlers -/

/-- The handlers. `fixnumTypeP` is `fixnum-type-p` of the derived type of the argument, `quoted`
is `quoted-form-p` of the second argument of `require-structure-type`. -/
inductive Handler
  | cons | fixnum | integer | number | symbol | function | hashTable | vector | simpleBitVector
  | string | simpleString | simpleVector
  | unsignedByte (fixnumTypeP : Bool)
  | ub32
  | structureType (name : String) (quoted : Bool)
  deriving DecidableEq, Repr

def lowtagMask : BitVec 8 := 7
def listLowtag : BitVec 8 := 1
def typedObjectLowtag : BitVec 8 := 2
def symbolLowtag : BitVec 8 := 7
def fixnumTagMask : BitVec 8 := 3

/-- The comparison of the lowtag of `rax`, through `dl`. -/
def requireLowtag (lowtag : BitVec 8) : List CheckInstr :=
  [.movb .rax .rdx, .andb lowtagMask .rdx, .cmpb lowtag .rdx, .base (.jmp .ne .error)]

/-- `p2-require-widetag-bit`. -/
def requireWidetagBit (offset : ℤ) (bit : ℕ) : List CheckInstr :=
  requireLowtag typedObjectLowtag ++
    [.testqMem (BitVec.ofNat 64 bit) (widetagDisplacement offset) .rax, .base (.jmp .z .error)]

/-- `p2-require-widetag`. -/
def requireWidetag (offset : ℤ) (widetag : Widetag) : List CheckInstr :=
  requireLowtag typedObjectLowtag ++
    [.cmpqMem (BitVec.ofNat 64 widetag.code) (widetagDisplacement offset) .rax,
      .base (.jmp .ne .error)]

def exitIfFixnum : List CheckInstr := [.base (.test fixnumTagMask .rax), .base (.jmp .z .exit)]

/-- A check without a full call. -/
def inlineCheck (code : List CheckInstr) : Check := ⟨code, fun _ => false⟩

def requireCons (nilWord : Word) : Check :=
  inlineCheck ([.base (.cmpImm nilWord .rax), .base (.jmp .e .error)] ++ requireLowtag listLowtag)

def requireFixnum : Check :=
  inlineCheck [.base (.test fixnumTagMask .rax), .base (.jmp .nz .error)]

def requireInteger (offset : ℤ) : Check :=
  inlineCheck (exitIfFixnum ++ requireWidetag offset .bignum)

def requireNumber (offset : ℤ) : Check :=
  inlineCheck (exitIfFixnum ++ requireWidetagBit offset widetagNumberBit)

def requireSymbol (nilWord : Word) : Check :=
  inlineCheck ([.base (.cmpImm nilWord .rax), .base (.jmp .e .exit)] ++
    requireLowtag symbolLowtag)

def sysRequireUnsignedByte : Object → Bool
  | .fixnum n => 0 ≤ n
  | .typed .bignum n _ => 0 < n
  | _ => false

def requireUnsignedByte (fixnumTypeP : Bool) : Check where
  code :=
    (if fixnumTypeP then []
      else [.base (.test fixnumTagMask .rax), .base (.jmp .nz .fullCall)]) ++
    [.testq .rax .rax, .base (.jmp .l .fullCall)]
  kernel := sysRequireUnsignedByte

def sysRequireUb32 : Object → Bool
  | .fixnum n => 0 ≤ n && n < 4294967296
  | _ => false

def requireUb32 : Check := ⟨[.call], sysRequireUb32⟩

def sysRequireStructureType (name : String) : Object → Bool
  | .typed .structureObject _ types => types.contains name
  | _ => false

def requireStructureType (name : String) : Check := ⟨[.call], sysRequireStructureType name⟩

def Handler.check (nilWord : Word) (offset : ℤ) : Handler → Check
  | .cons => requireCons nilWord
  | .fixnum => requireFixnum
  | .integer => requireInteger offset
  | .number => requireNumber offset
  | .symbol => requireSymbol nilWord
  | .function => inlineCheck (requireWidetagBit offset widetagFunctionBit)
  | .hashTable => inlineCheck (requireWidetag offset .hashTable)
  | .vector => inlineCheck (requireWidetagBit offset widetagVectorBit)
  | .simpleBitVector => inlineCheck (requireWidetag offset .simpleBitVector)
  | .string => inlineCheck (requireWidetagBit offset widetagStringBit)
  | .simpleString => inlineCheck (requireWidetagBit offset widetagSimpleStringBit)
  | .simpleVector => inlineCheck (requireWidetag offset .simpleVector)
  | .unsignedByte fixnumTypeP => requireUnsignedByte fixnumTypeP
  | .ub32 => requireUb32
  | .structureType name _ => requireStructureType name

def Handler.type : Handler → TypeName
  | .cons => .cons
  | .fixnum => .fixnum
  | .integer => .integer
  | .number => .number
  | .symbol => .symbol
  | .function => .function
  | .hashTable => .hashTable
  | .vector => .vector
  | .simpleBitVector => .simpleBitVector
  | .string => .string
  | .simpleString => .simpleString
  | .simpleVector => .simpleVector
  | .unsignedByte _ => .range 0 none
  | .ub32 => .range 0 (some 4294967295)
  | .structureType name _ => .structure name

/-- The type that a handler passes to `add-type-constraint`. -/
def Handler.constraint : Handler → Option TypeName
  | .cons => some .cons
  | .fixnum => some .fixnum
  | .integer => some .integer
  -- the handler of `require-number` ends like that of `require-fixnum`
  | .number => some .fixnum
  | .symbol => some .symbol
  | .function => some .function
  | .hashTable => some .hashTable
  | .vector => some .vector
  | .simpleBitVector => some .simpleBitVector
  | .string => some .string
  | .simpleString => some .simpleString
  | .simpleVector => some .simpleVector
  | .unsignedByte _ => some (.range 0 none)
  | .ub32 => some (.range 0 (some 4294967295))
  | .structureType name quoted => if quoted then some (.structure name) else none

/-! ## Running a check -/

/-- What follows after the label: the end of the check, an error or the kernel function. -/
def CheckLabel.passes (kernel : Bool) : CheckLabel → Bool
  | .exit => true
  | .error => false
  | .fullCall => kernel

/-- `passes` of the code that is left. -/
def passesFrom (kernel : Bool) (s : State) (code : List CheckInstr) : Bool :=
  match runCheck s code with
  | .reached _ => true
  | .branched label _ => label.passes kernel

theorem passes_eq_passesFrom (s : State) (check : Check) (o : Object) :
    passes s check o = passesFrom (check.kernel o) s check.code := by
  unfold passes passesFrom
  cases runCheck s check.code with
  | reached => rfl
  | branched label => cases label <;> rfl

variable {kernel : Bool} {s : State} {offset : ℤ}

@[simp] theorem passesFrom_nil : passesFrom kernel s [] = true := rfl

theorem passesFrom_cons {s' : State} {i : CheckInstr} (h : execCheck s i = .reached s')
    (code : List CheckInstr) : passesFrom kernel s (i :: code) = passesFrom kernel s' code := by
  unfold passesFrom
  rw [runCheck, h]

theorem passesFrom_jmp (test : Cond) (label : CheckLabel) (code : List CheckInstr) :
    passesFrom kernel s (.base (.jmp test label) :: code) =
      if test.holds s.flags then label.passes kernel else passesFrom kernel s code := by
  unfold passesFrom
  cases h : test.holds s.flags <;> simp [runCheck, execCheck, exec, h]

theorem truncate_setLowByte (w : Word) (b : BitVec 8) : (setLowByte w b).truncate 8 = b := by
  apply BitVec.eq_of_getLsbD_eq
  intro i hi
  simp [setLowByte, hi]

theorem truncate_and_lowtagMask (w : Word) :
    (w.truncate 8 &&& lowtagMask).toNat = w.toNat % 8 := by
  rw [BitVec.toNat_and, BitVec.truncate_eq_setWidth, BitVec.toNat_setWidth]
  have := Nat.and_two_pow_sub_one_eq_mod (w.toNat % 2 ^ 8) 3
  rw [show lowtagMask.toNat = 2 ^ 3 - 1 from rfl, this]
  omega

/-- The lowtag is compared, and `rax` and the memory are kept. -/
theorem passesFrom_requireLowtag (kernel : Bool) (s : State) (lowtag : BitVec 8) :
    ∃ s' : State, s'.regs .rax = s.regs .rax ∧ s'.mem = s.mem ∧ ∀ code,
      passesFrom kernel s (requireLowtag lowtag ++ code) =
        (decide ((s.regs .rax).toNat % 8 = lowtag.toNat) && passesFrom kernel s' code) := by
  let b := (s.regs .rax).truncate 8 &&& lowtagMask
  let s₁ := s.set .rdx (setLowByte (s.regs .rdx) ((s.regs .rax).truncate 8))
  let s₂ := (s₁.set .rdx (setLowByte (s₁.regs .rdx) b)).setFlags (testFlags b b)
  have hmov : execCheck s (.movb .rax .rdx) = .reached s₁ := rfl
  have hand : execCheck s₁ (.andb lowtagMask .rdx) = .reached s₂ := by
    simp only [execCheck, s₂, b]
    rw [show (s₁.regs .rdx).truncate 8 = (s.regs .rax).truncate 8 from truncate_setLowByte _ _]
  have hcmp : (s₂.regs .rdx).truncate 8 = b := truncate_setLowByte _ _
  refine ⟨s₂.setFlags (subFlags8 b lowtag), rfl, rfl, fun code => ?_⟩
  unfold requireLowtag
  rw [List.cons_append, passesFrom_cons hmov, List.cons_append, passesFrom_cons hand,
    List.cons_append, passesFrom_cons rfl, hcmp, List.cons_append, passesFrom_jmp,
    List.nil_append]
  have hne : Cond.holds (State.setFlags s₂ (subFlags8 b lowtag)).flags .ne =
      !decide ((s.regs .rax).toNat % 8 = lowtag.toNat) := by
    show (!(b == lowtag)) = _
    rw [← truncate_and_lowtagMask, Bool.not_inj_iff, Bool.eq_iff_iff, beq_iff_eq,
      decide_eq_true_iff, BitVec.toNat_inj]
  rw [hne]
  cases decide ((s.regs .rax).toNat % 8 = lowtag.toNat) <;> rfl

/-- The word of the widetag of `rax`. -/
def widetagWord (offset : ℤ) (s : State) : Word :=
  s.mem (s.regs .rax + BitVec.ofInt 64 (widetagDisplacement offset))

theorem passesFrom_requireWidetagBit (bit : ℕ) :
    passesFrom kernel s (requireWidetagBit offset bit) =
      (decide ((s.regs .rax).toNat % 8 = 2) &&
        widetagWord offset s &&& BitVec.ofNat 64 bit != 0) := by
  obtain ⟨s', hrax, hmem, hcode⟩ :=
    passesFrom_requireLowtag kernel s typedObjectLowtag
  unfold requireWidetagBit
  rw [hcode, passesFrom_cons rfl, passesFrom_jmp, hrax, hmem]
  congr 1
  show (if (widetagWord offset s &&& BitVec.ofNat 64 bit == 0) = true then false else true) =
    !(widetagWord offset s &&& BitVec.ofNat 64 bit == 0)
  cases widetagWord offset s &&& BitVec.ofNat 64 bit == 0 <;> rfl

theorem passesFrom_requireWidetag (widetag : Widetag) :
    passesFrom kernel s (requireWidetag offset widetag) =
      (decide ((s.regs .rax).toNat % 8 = 2) &&
        widetagWord offset s == BitVec.ofNat 64 widetag.code) := by
  obtain ⟨s', hrax, hmem, hcode⟩ :=
    passesFrom_requireLowtag kernel s typedObjectLowtag
  unfold requireWidetag
  rw [hcode, passesFrom_cons rfl, passesFrom_jmp, hrax, hmem]
  congr 1
  show (if (!(widetagWord offset s == BitVec.ofNat 64 widetag.code)) = true then false else true) =
    (widetagWord offset s == BitVec.ofNat 64 widetag.code)
  cases widetagWord offset s == BitVec.ofNat 64 widetag.code <;> rfl

/-- The exit of the fixnums, and `rax` and the memory are kept. -/
theorem passesFrom_exitIfFixnum (kernel : Bool) (s : State) :
    ∃ s' : State, s'.regs .rax = s.regs .rax ∧ s'.mem = s.mem ∧ ∀ code,
      passesFrom kernel s (exitIfFixnum ++ code) =
        (fixnump (s.regs .rax) || passesFrom kernel s' code) := by
  refine ⟨s.setFlags (testFlags ((s.regs .rax).truncate 8) 3), rfl, rfl, fun code => ?_⟩
  unfold exitIfFixnum
  rw [List.cons_append, passesFrom_cons rfl, List.cons_append, passesFrom_jmp, List.nil_append]
  have hz : Cond.holds (State.setFlags s (testFlags ((s.regs .rax).truncate 8) 3)).flags .z =
      fixnump (s.regs .rax) := by
    have h := and_three_eq (s.regs .rax)
    rw [bne, Bool.not_inj_iff] at h
    exact h
  rw [show fixnumTagMask = 3 from rfl, hz]
  cases fixnump (s.regs .rax) <;> rfl

/-! ## What the checks let pass -/

variable {nilWord v : Word} {o : Object}

theorem fixnumize_emod_four {n : ℤ} (hlo : -2 ^ 61 ≤ n) (hhi : n < 2 ^ 61) :
    (fixnumize n).toNat % 4 = 0 := by
  have h := toInt_emod_four (fixnumize n)
  rw [toInt_fixnumize hlo hhi] at h
  omega

theorem Represents.fixnump_eq (hnil : nilWord.toNat % 8 = 1)
    (h : Represents nilWord offset s.mem v o) : fixnump v = o.typep .fixnum := by
  rw [Bool.eq_iff_iff, fixnump_iff]
  cases o with
  | fixnum n =>
    obtain ⟨hlo, hhi, rfl⟩ := h
    simp [Object.typep, fixnumize_emod_four hlo hhi]
  | nil =>
    simp only [Represents] at h
    simp only [h, Object.typep, Bool.false_eq_true, iff_false]
    omega
  | _ =>
    simp only [Represents] at h
    simp only [Object.typep, Bool.false_eq_true, iff_false]
    omega

theorem Represents.lowtag_eq_two_iff (hnil : nilWord.toNat % 8 = 1)
    (h : Represents nilWord offset s.mem v o) : v.toNat % 8 = 2 ↔ o.widetag.isSome = true := by
  cases o with
  | fixnum n =>
    obtain ⟨hlo, hhi, rfl⟩ := h
    have := fixnumize_emod_four hlo hhi
    simp only [Object.widetag, Option.isSome_none, Bool.false_eq_true, iff_false]
    omega
  | nil =>
    simp only [Represents] at h
    simp only [h, Object.widetag, Option.isSome_none, Bool.false_eq_true, iff_false]
    omega
  | typed => simp [Object.widetag, h.1]
  | _ =>
    simp only [Represents] at h
    simp only [Object.widetag, Option.isSome_none, Bool.false_eq_true, iff_false]
    omega

theorem Represents.cons_iff (h : Represents nilWord offset s.mem v o) :
    v ≠ nilWord ∧ v.toNat % 8 = 1 ↔ o.typep .cons = true := by
  cases o with
  | fixnum n =>
    obtain ⟨hlo, hhi, rfl⟩ := h
    have := fixnumize_emod_four hlo hhi
    simp only [Object.typep, beq_iff_eq, reduceCtorEq, iff_false]
    omega
  | cons =>
    simp only [Object.typep, beq_iff_eq, iff_true]
    exact ⟨h.2, h.1⟩
  | nil =>
    simp only [Represents] at h
    simp [h, Object.typep]
  | _ =>
    simp only [Represents] at h
    simp only [Object.typep, beq_iff_eq, reduceCtorEq, iff_false]
    omega

theorem Represents.symbol_iff (hnil : nilWord.toNat % 8 = 1)
    (h : Represents nilWord offset s.mem v o) :
    v = nilWord ∨ v.toNat % 8 = 7 ↔ o.typep .symbol = true := by
  cases o with
  | fixnum n =>
    obtain ⟨hlo, hhi, rfl⟩ := h
    have := fixnumize_emod_four hlo hhi
    have hne : fixnumize n ≠ nilWord := fun he => by rw [he] at this; omega
    simp only [Object.typep, beq_iff_eq, hne, Bool.or_eq_true, reduceCtorEq, or_false, false_or,
      iff_false]
    omega
  | nil => simp [show v = nilWord from h, Object.typep]
  | symbol => simp [show v.toNat % 8 = 7 from h, Object.typep]
  | cons =>
    have hlowtag := h.1
    simp only [Object.typep, beq_iff_eq, h.2, Bool.or_eq_true, reduceCtorEq, or_false, false_or,
      iff_false]
    omega
  | _ =>
    simp only [Represents] at h
    have hne : v ≠ nilWord := fun he => by rw [he] at h; omega
    simp only [Object.typep, beq_iff_eq, hne, Bool.or_eq_true, reduceCtorEq, or_false, false_or,
      iff_false]
    omega

def Widetag.hasBit (bit : ℕ) (widetag : Widetag) : Bool :=
  BitVec.ofNat 64 widetag.code &&& BitVec.ofNat 64 bit != 0

theorem hasBit_number (w : Widetag) : w.hasBit widetagNumberBit = numberWidetags.contains w := by
  cases w <;> rfl

theorem hasBit_function (w : Widetag) :
    w.hasBit widetagFunctionBit = functionWidetags.contains w := by
  cases w <;> rfl

theorem hasBit_vector (w : Widetag) : w.hasBit widetagVectorBit = vectorWidetags.contains w := by
  cases w <;> rfl

theorem hasBit_string (w : Widetag) : w.hasBit widetagStringBit = stringWidetags.contains w := by
  cases w <;> rfl

theorem hasBit_simpleString (w : Widetag) :
    w.hasBit widetagSimpleStringBit = (w == .simpleString || w == .simpleNilVector) := by
  cases w <;> rfl

theorem Widetag.code_lt (w : Widetag) : w.code < 2 ^ 64 := by
  cases w <;> decide

/-- All widetags, in the order of their declaration. -/
def widetags : List Widetag := (List.range 67).map Widetag.ofNat

theorem Widetag.code_injective : Function.Injective Widetag.code := by
  have hfind : ∀ w : Widetag, widetags.find? (·.code == w.code) = some w := by
    intro w
    cases w <;> rfl
  intro a b h
  have hb := hfind b
  rw [← h, hfind a] at hb
  exact Option.some.inj hb

theorem ofNat_code_beq (a b : Widetag) :
    (BitVec.ofNat 64 a.code == BitVec.ofNat 64 b.code) = (a == b) := by
  rw [Bool.eq_iff_iff, beq_iff_eq, beq_iff_eq, ← BitVec.toNat_inj, BitVec.toNat_ofNat,
    BitVec.toNat_ofNat, Nat.mod_eq_of_lt a.code_lt, Nat.mod_eq_of_lt b.code_lt]
  exact Widetag.code_injective.eq_iff

theorem passesFrom_signTest :
    passesFrom kernel s [.testq .rax .rax, .base (.jmp .l .fullCall)] =
      if (s.regs .rax).toInt < 0 then kernel else true := by
  have hl : Cond.holds (testFlags64 (s.regs .rax) (s.regs .rax)) .l =
      decide ((s.regs .rax).toInt < 0) := by
    show ((s.regs .rax &&& s.regs .rax).msb != false) = _
    rw [BitVec.and_self, BitVec.msb_eq_toInt, Bool.bne_false]
  rw [passesFrom_cons rfl, passesFrom_jmp, passesFrom_nil]
  show (if Cond.holds (testFlags64 (s.regs .rax) (s.regs .rax)) .l = true then kernel else true) = _
  rw [hl]
  simp only [decide_eq_true_eq]

theorem passesFrom_tagTest_append (code : List CheckInstr) :
    passesFrom kernel s ([.base (.test fixnumTagMask .rax), .base (.jmp .nz .fullCall)] ++ code) =
      if fixnump (s.regs .rax) then
        passesFrom kernel (s.setFlags (testFlags ((s.regs .rax).truncate 8) 3)) code
      else kernel := by
  rw [List.cons_append, passesFrom_cons rfl, List.cons_append, passesFrom_jmp, List.nil_append]
  show (if ((s.regs .rax).truncate 8 &&& (3 : BitVec 8) != 0) = true then kernel
    else passesFrom kernel (s.setFlags (testFlags ((s.regs .rax).truncate 8) 3)) code) = _
  rw [and_three_eq]
  cases fixnump (s.regs .rax) <;> rfl

section Passes

variable (hnil : nilWord.toNat % 8 = 1) (h : Represents nilWord offset s.mem (s.regs .rax) o)

include hnil h

theorem passes_requireWidetagBit (bit : ℕ) :
    passesFrom kernel s (requireWidetagBit offset bit) = o.widetag.any (·.hasBit bit) := by
  rw [passesFrom_requireWidetagBit]
  have htag := h.lowtag_eq_two_iff hnil
  cases o with
  | typed widetag value types =>
    have hword : widetagWord offset s = BitVec.ofNat 64 widetag.code := h.2.1
    simp [h.1, hword, Object.widetag, Widetag.hasBit]
  | _ => simp [htag, Object.widetag]

theorem passes_requireWidetag (widetag : Widetag) :
    passesFrom kernel s (requireWidetag offset widetag) = (o.widetag == some widetag) := by
  rw [passesFrom_requireWidetag]
  have htag := h.lowtag_eq_two_iff hnil
  cases o with
  | typed widetag' value types =>
    have hword : widetagWord offset s = BitVec.ofNat 64 widetag'.code := h.2.1
    rw [hword, ofNat_code_beq]
    simp [h.1, Object.widetag]
  | _ => simp [htag, Object.widetag]

omit hnil in
theorem passes_requireCons :
    passesFrom kernel s (requireCons nilWord).code = o.typep .cons := by
  unfold requireCons inlineCheck
  rw [List.cons_append, passesFrom_cons rfl, List.cons_append, passesFrom_jmp, List.nil_append]
  obtain ⟨s', -, -, hcode⟩ := passesFrom_requireLowtag kernel
    (s.setFlags (subFlags (s.regs .rax) nilWord)) listLowtag
  have hcode := hcode []
  rw [List.append_nil, passesFrom_nil, Bool.and_true] at hcode
  rw [hcode, Bool.eq_iff_iff, ← h.cons_iff]
  show (if (s.regs .rax == nilWord) = true then false
    else decide ((s.regs .rax).toNat % 8 = 1)) = true ↔ _
  by_cases he : s.regs .rax = nilWord <;> simp [he]

theorem passes_requireFixnum :
    passesFrom kernel s requireFixnum.code = o.typep .fixnum := by
  unfold requireFixnum inlineCheck
  rw [passesFrom_cons rfl, passesFrom_jmp, passesFrom_nil, ← h.fixnump_eq hnil]
  show (if ((s.regs .rax).truncate 8 &&& (3 : BitVec 8) != 0) = true then false else true) = _
  rw [and_three_eq]
  cases fixnump (s.regs .rax) <;> rfl

theorem passes_requireInteger :
    passesFrom kernel s (requireInteger offset).code = o.typep .integer := by
  obtain ⟨s', hrax, hmem, hcode⟩ := passesFrom_exitIfFixnum kernel s
  have h' : Represents nilWord offset s'.mem (s'.regs .rax) o := by rwa [hrax, hmem]
  unfold requireInteger inlineCheck
  rw [hcode, passes_requireWidetag hnil h', h.fixnump_eq hnil]
  cases o with
  | typed widetag value types =>
    cases widetag <;> rfl
  | _ => rfl

theorem passes_requireNumber :
    passesFrom kernel s (requireNumber offset).code = o.typep .number := by
  obtain ⟨s', hrax, hmem, hcode⟩ := passesFrom_exitIfFixnum kernel s
  have h' : Represents nilWord offset s'.mem (s'.regs .rax) o := by rwa [hrax, hmem]
  unfold requireNumber inlineCheck
  rw [hcode, passes_requireWidetagBit hnil h', h.fixnump_eq hnil]
  simp only [hasBit_number]
  cases o with
  | typed widetag value types =>
    cases widetag <;> rfl
  | _ => rfl

theorem passes_requireSymbol :
    passesFrom kernel s (requireSymbol nilWord).code = o.typep .symbol := by
  unfold requireSymbol inlineCheck
  rw [List.cons_append, passesFrom_cons rfl, List.cons_append, passesFrom_jmp, List.nil_append]
  obtain ⟨s', -, -, hcode⟩ := passesFrom_requireLowtag kernel
    (s.setFlags (subFlags (s.regs .rax) nilWord)) symbolLowtag
  have hcode := hcode []
  rw [List.append_nil, passesFrom_nil, Bool.and_true] at hcode
  rw [hcode, Bool.eq_iff_iff, ← h.symbol_iff hnil]
  show (if (s.regs .rax == nilWord) = true then true
    else decide ((s.regs .rax).toNat % 8 = 7)) = true ↔ _
  by_cases he : s.regs .rax = nilWord <;> simp [he]

theorem passes_requireUnsignedByte (fixnumTypeP : Bool)
    (hfix : fixnumTypeP = true → o.typep .fixnum = true) :
    passesFrom (sysRequireUnsignedByte o) s (requireUnsignedByte fixnumTypeP).code =
      o.typep (.range 0 none) := by
  -- a fixnum is decided by its sign, any other value by the kernel
  have hcode : passesFrom (sysRequireUnsignedByte o) s (requireUnsignedByte fixnumTypeP).code =
      if fixnump (s.regs .rax) ∧ 0 ≤ (s.regs .rax).toInt then true
      else sysRequireUnsignedByte o := by
    unfold requireUnsignedByte
    have hfixnump := h.fixnump_eq hnil
    cases fixnumTypeP with
    | true =>
      rw [hfix rfl] at hfixnump
      rw [if_pos rfl, List.nil_append, passesFrom_signTest, hfixnump]
      by_cases hlt : (s.regs .rax).toInt < 0 <;> simp [hlt, not_le.mpr, not_lt.mp]
    | false =>
      rw [if_neg Bool.false_ne_true, passesFrom_tagTest_append, passesFrom_signTest]
      show (if fixnump (s.regs .rax) = true then
        if (s.regs .rax).toInt < 0 then sysRequireUnsignedByte o else true
        else sysRequireUnsignedByte o) = _
      by_cases hlt : (s.regs .rax).toInt < 0 <;> cases fixnump (s.regs .rax) <;>
        simp [hlt, not_le.mpr, not_lt.mp]
  rw [hcode, h.fixnump_eq hnil]
  cases o with
  | fixnum n =>
    obtain ⟨hlo, hhi, hv⟩ := h
    rw [hv, toInt_fixnumize hlo hhi]
    by_cases hn : 0 ≤ n
    · simp [Object.typep, Object.integer, hn]
    · simp [Object.typep, Object.integer, sysRequireUnsignedByte, hn]
  | typed widetag value types =>
    cases widetag with
    | bignum =>
      have hvalue := h.2.2 rfl
      simp only [Object.typep, Object.integer, sysRequireUnsignedByte, Option.any_some,
        Option.all_none, Bool.and_true, Bool.false_eq_true, false_and, if_false, decide_eq_decide]
      omega
    | _ => rfl
  | _ => rfl

end Passes

/-! ## Which checks are right -/

/-- **A check lets exactly the values of its type pass.** -/
theorem passes_eq_typep (hnil : nilWord.toNat % 8 = 1)
    (h : Represents nilWord offset s.mem (s.regs .rax) o) (handler : Handler)
    (hfix : handler = .unsignedByte true → o.typep .fixnum = true) :
    passes s (handler.check nilWord offset) o = o.typep handler.type := by
  rw [passes_eq_passesFrom]
  cases handler with
  | cons => exact passes_requireCons h
  | fixnum => exact passes_requireFixnum hnil h
  | integer => exact passes_requireInteger hnil h
  | number => exact passes_requireNumber hnil h
  | symbol => exact passes_requireSymbol hnil h
  | function =>
    refine (passes_requireWidetagBit hnil h _).trans ?_
    simp only [hasBit_function]
    rfl
  | vector =>
    refine (passes_requireWidetagBit hnil h _).trans ?_
    simp only [hasBit_vector]
    rfl
  | string =>
    refine (passes_requireWidetagBit hnil h _).trans ?_
    simp only [hasBit_string]
    rfl
  | simpleString =>
    refine (passes_requireWidetagBit hnil h _).trans ?_
    simp only [hasBit_simpleString, Handler.type, Object.typep]
    cases o.widetag <;> rfl
  | hashTable => exact passes_requireWidetag hnil h _
  | simpleBitVector => exact passes_requireWidetag hnil h _
  | simpleVector => exact passes_requireWidetag hnil h _
  | unsignedByte fixnumTypeP =>
    exact passes_requireUnsignedByte hnil h fixnumTypeP fun hp => hfix (by rw [hp])
  | ub32 =>
    show sysRequireUb32 o = o.typep (.range 0 (some 4294967295))
    rw [Bool.eq_iff_iff]
    cases o with
    | fixnum n =>
      simp only [sysRequireUb32, Object.typep, Object.integer, Option.any_some, Option.all_some,
        Bool.and_eq_true, decide_eq_true_eq]
      omega
    | typed widetag value types =>
      cases widetag with
      | bignum =>
        have hvalue := h.2.2 rfl
        simp only [sysRequireUb32, Object.typep, Object.integer, Option.any_some, Option.all_some,
          Bool.and_eq_true, decide_eq_true_eq, Bool.false_eq_true, false_iff]
        omega
      | _ => exact Iff.rfl
    | _ => exact Iff.rfl
  | structureType name quoted =>
    show sysRequireStructureType name o = o.typep (.structure name)
    cases o with
    | typed widetag value types => cases widetag <;> rfl
    | _ => rfl

/-- A handler is right about a value: its check lets the value pass exactly when it is of the
required type, and the recorded type is true of it when it passes. -/
def Handler.RightAbout (handler : Handler) (nilWord : Word) (offset : ℤ) (s : State)
    (o : Object) : Prop :=
  (passes s (handler.check nilWord offset) o = true ↔ o.typep handler.type = true) ∧
    ∀ type, handler.constraint = some type →
      passes s (handler.check nilWord offset) o = true → o.typep type = true

/-- **A handler is right about every value, except `require-number` about the numbers that are not
fixnums.** -/
theorem check_right_iff (hnil : nilWord.toNat % 8 = 1)
    (h : Represents nilWord offset s.mem (s.regs .rax) o) (handler : Handler)
    (hfix : handler = .unsignedByte true → o.typep .fixnum = true) :
    handler.RightAbout nilWord offset s o ↔
      ¬(handler = .number ∧ o.typep .number = true ∧ o.typep .fixnum = false) := by
  unfold Handler.RightAbout
  rw [passes_eq_typep hnil h handler hfix]
  simp only [true_and]
  cases handler with
  | number =>
    simp only [Handler.constraint, Handler.type, Option.some.injEq, forall_eq', true_and, not_and,
      Bool.not_eq_false]
  | structureType name quoted =>
    cases quoted <;> simp [Handler.constraint, Handler.type]
  | _ => simp [Handler.constraint, Handler.type]

/-- A bignum at the address 2. -/
def bignumState : State where
  regs := fun _ => 2
  flags := ⟨false, false, false, false⟩
  mem := fun _ => BitVec.ofNat 64 Widetag.bignum.code

theorem represents_bignum :
    Represents 1 0 bignumState.mem (bignumState.regs .rax) (.typed .bignum (2 ^ 61) []) :=
  ⟨rfl, rfl, fun _ => Or.inr (le_refl _)⟩

/-- `require-integer` is right about a bignum. -/
theorem check_right_integer :
    Represents 1 0 bignumState.mem (bignumState.regs .rax) (.typed .bignum (2 ^ 61) []) ∧
      Handler.integer.RightAbout 1 0 bignumState (.typed .bignum (2 ^ 61) []) :=
  ⟨represents_bignum,
    (check_right_iff rfl represents_bignum .integer (fun h => by cases h)).mpr
      (fun h => by cases h.1)⟩

/-- `require-number` lets a bignum pass and records `FIXNUM`. -/
theorem number_not_right :
    Represents 1 0 bignumState.mem (bignumState.regs .rax) (.typed .bignum (2 ^ 61) []) ∧
      passes bignumState (Handler.number.check 1 0) (.typed .bignum (2 ^ 61) []) = true ∧
      ¬Handler.number.RightAbout 1 0 bignumState (.typed .bignum (2 ^ 61) []) := by
  have hpass :
      passes bignumState (Handler.number.check 1 0) (.typed .bignum (2 ^ 61) []) = true := by
    rw [passes_eq_typep rfl represents_bignum .number (fun h => by cases h)]
    rfl
  refine ⟨represents_bignum, hpass, fun hright => ?_⟩
  have := hright.2 .fixnum rfl hpass
  exact Bool.false_ne_true this

end Xcl.P2
