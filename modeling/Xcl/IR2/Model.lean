import Mathlib.Data.List.ReduceOption
import Xcl.X86.Condition
import Xcl.X86.Register

/-!
# IR2 and its optimisation passes

The passes scan the instruction vector once, or twice, and set the entries to delete to `nil`; the
`nil`s are deleted at the end. A scan that reads the next one or two instructions carries the
current one as an argument, since the step before may have changed it.
-/

namespace Xcl.IR2

open X86 (Reg64)

inductive Operand
  | null
  | fixnum (n : ℤ)
  | reg64 (r : Reg64)
  /-- The 32-bit register that is the lower half of a register. -/
  | reg32 (r : Reg64)
  /-- The list `(:constant-32 nil)`. -/
  | constant32Null
  | other (n : ℕ)
  deriving DecidableEq, Repr

inductive CallTarget
  | label (symbol : Label)
  | function (n : ℕ)
  deriving DecidableEq, Repr

inductive Instruction
  | label (symbol : Label) (external : Bool)
  /-- `:jmp-short` or `:jmp`. -/
  | jmp (short : Bool) (test : Test) (target : Label)
  | exit
  | call (target : CallTarget)
  | sar (operand1 operand2 : Operand)
  | shl (operand1 operand2 : Operand)
  | compareImmediate (operand1 operand2 : Operand)
  | moveImmediate (operand1 operand2 : Operand)
  | other (n : ℕ)
  deriving DecidableEq, Repr

abbrev Code := List Instruction

/-- `(delete nil code)`, and whether anything was deleted. The scans set `changed` when they set an
entry to `nil`. -/
def finish (marks : List (Option Instruction)) : Code × Bool :=
  (marks.reduceOption, marks.any Option.isNone)

/-! ## Unreachable code -/

/-- The loop of `optimize-ir2-1`; `dead` says that control does not reach the instruction. -/
def scan1 : Bool → Code → List (Option Instruction)
  | _, [] => []
  | dead, .exit :: code => (if dead then none else some .exit) :: scan1 true code
  | dead, .jmp short test target :: code =>
    if dead then none :: scan1 true code
    else some (.jmp short test target) :: scan1 (test == .t) code
  | _, .label symbol external :: code => some (.label symbol external) :: scan1 false code
  | dead, i :: code => (if dead then none else some i) :: scan1 dead code

def optimizeIr2_1 (code : Code) : Code × Bool := finish (scan1 false code)

/-! ## Adjacent labels -/

abbrev Referrals := Label → Option Label

/-- The first loop of `optimize-ir2-1b`, from the instruction `i` on, which is `none` if it has
been killed: kills the second of two labels in a row. -/
def scan1b : Option Instruction → Code → Referrals → List (Option Instruction) × Referrals
  | i, [], ht => ([i], ht)
  | some (.label symbol₁ external), .label symbol₂ _ :: code, ht =>
    let (marks, ht) := scan1b none code (Function.update ht symbol₂ (some symbol₁))
    (some (.label symbol₁ external) :: marks, ht)
  | i, j :: code, ht =>
    let (marks, ht) := scan1b (some j) code ht
    (i :: marks, ht)

/-- The second loop of `optimize-ir2-1b`, for one instruction. -/
def refer1b (ht : Referrals) : Instruction → Instruction
  | .jmp short test target => .jmp short test ((ht target).getD target)
  | .call (.label target) => .call (.label ((ht target).getD target))
  | i => i

def optimizeIr2_1b : Code → Code × Bool
  | [] => ([], false)
  | i :: code =>
    let (marks, ht) := scan1b (some i) code fun _ => none
    let (result, changed) := finish marks
    if changed then (result.map (refer1b ht), true) else (i :: code, false)

/-! ## A jump over a jump -/

/-- The loop of `optimize-ir2-1c`, from the instruction `i` on. A test that is not in the negation
table fails an `aver`, and the result is then `none`. -/
def scan1c : Instruction → Code → Option (List (Option Instruction))
  | i, [] => some [some i]
  | i, [j] => some [some i, some j]
  | .jmp short₁ (.cond test) target₁, .jmp short₂ .t target₂ :: .label symbol external :: code =>
    if symbol = target₁ then do
      let negated ← negatedTest test
      let marks ← scan1c (.jmp short₂ (.cond negated) target₂) (.label symbol external :: code)
      return none :: marks
    else do
      let marks ← scan1c (.jmp short₂ .t target₂) (.label symbol external :: code)
      return some (.jmp short₁ (.cond test) target₁) :: marks
  | i, j :: k :: code => do
    let marks ← scan1c j (k :: code)
    return some i :: marks

def optimizeIr2_1c : Code → Option (Code × Bool)
  | [] => some ([], false)
  | i :: code => (scan1c i code).map finish

/-! ## Unused labels -/

def Instruction.uses (symbol : Label) : Instruction → Bool
  | .jmp _ _ target => target == symbol
  | .call (.label target) => target == symbol
  | _ => false

/-- The second loop of `optimize-ir2-2`, for one instruction. -/
def mark2 (used : Label → Bool) : Instruction → Option Instruction
  | .label symbol external =>
    if external || used symbol then some (.label symbol external) else none
  | i => some i

def optimizeIr2_2 (code : Code) : Code × Bool :=
  finish (code.map (mark2 fun symbol => code.any (Instruction.uses symbol)))

/-! ## Jumps to jumps -/

/-- The first loop of `optimize-ir2-3`: records the labels that an unconditional jump follows.
`label` is the label just before, if it has not been used up. -/
def scan3 : Option Label → Code → Referrals → Referrals
  | _, [], ht => ht
  | some label, .jmp _ .t target :: code, ht =>
    scan3 none code (Function.update ht label (some target))
  | some _, _ :: code, ht => scan3 none code ht
  | none, .label symbol _ :: code, ht => scan3 (some symbol) code ht
  | none, _ :: code, ht => scan3 none code ht

/-- The second loop of `optimize-ir2-3`, for one instruction. -/
def refer3 (ht : Referrals) : Instruction → Instruction
  | .jmp short test target => .jmp short test ((ht target).getD target)
  | i => i

/-- `(and referral (neq referral target))` for some jump. -/
def referred3 (ht : Referrals) : Instruction → Bool
  | .jmp _ _ target => (ht target).any (· ≠ target)
  | _ => false

def optimizeIr2_3 (code : Code) : Code × Bool :=
  let ht := scan3 none code fun _ => none
  (code.map (refer3 ht), code.any (referred3 ht))

/-! ## Jumps to the next instruction -/

/-- The loop of `optimize-ir2-4`, from the instruction `i` on. -/
def scan4 : Instruction → Code → List (Option Instruction)
  | i, [] => [some i]
  | .jmp short .t target, .label symbol external :: code =>
    (if target = symbol then none else some (.jmp short .t target)) ::
      scan4 (.label symbol external) code
  | i, j :: code => some i :: scan4 j code

def optimizeIr2_4 : Code → Code × Bool
  | [] => ([], false)
  | i :: code => finish (scan4 i code)

/-! ## Shifts and loads of `nil` -/

/-- The loop of `optimize-ir2-5`, from the instruction `i` on. -/
def scan5 : Instruction → Code → List (Option Instruction)
  | i, [] => [some i]
  | .sar (.fixnum shift₁) reg₁, .shl (.fixnum shift₂) reg₂ :: code =>
    if reg₁ = reg₂ ∧ shift₂ > shift₁ then
      none :: scan5 (.shl (.fixnum (shift₂ - shift₁)) reg₁) code
    else some (.sar (.fixnum shift₁) reg₁) :: scan5 (.shl (.fixnum shift₂) reg₂) code
  | i, j :: code => some i :: scan5 j code

def optimizeIr2_5 : Code → Code × Bool
  | [] => ([], false)
  | i :: code => finish (scan5 i code)

/-- The three instructions that `optimize-ir2-8` looks for. -/
def loadsNull : Option Instruction → Option Instruction → Instruction → Bool
  | some (.compareImmediate .null (.reg64 reg)), some (.jmp true (.cond .ne) _),
      .moveImmediate .constant32Null (.reg32 reg') =>
    reg' == reg && [.rax, .rcx, .rdx, .rbx].contains reg
  | _, _, _ => false

/-- The loop of `optimize-ir2-8`, from the instructions `i` and `j` on. -/
def scan8 : Option Instruction → Option Instruction → Code → List (Option Instruction)
  | i, j, [] => [i, j]
  | i, j, k :: code =>
    i :: scan8 j (if loadsNull i j k then none else some k) code

def optimizeIr2_8 : Code → Code × Bool
  | [] => ([], false)
  | [i] => ([i], false)
  | i :: j :: code => finish (scan8 (some i) (some j) code)

/-! ## The loop -/

/-- One round of the loop of `optimize-ir2`, and whether a pass has changed anything; `none` if an
`aver` fails. -/
def round (code : Code) : Option (Code × Bool) := do
  let (code, changed₁) := optimizeIr2_1 code
  let (code, changed₁b) := optimizeIr2_1b code
  let (code, changed₁c) ← optimizeIr2_1c code
  let (code, changed₂) := optimizeIr2_2 code
  let (code, changed₃) := optimizeIr2_3 code
  let (code, changed₄) := optimizeIr2_4 code
  let (code, changed₅) := optimizeIr2_5 code
  let (code, changed₈) := optimizeIr2_8 code
  return (code, changed₁ || changed₁b || changed₁c || changed₂ || changed₃ || changed₄ ||
    changed₅ || changed₈)

/-- The loop of `optimize-ir2`, at most `n` rounds of it. -/
def optimizeIr2 : ℕ → Code → Option Code
  | 0, _ => none
  | n + 1, code => do
    let (code, changed) ← round code
    if changed then optimizeIr2 n code else return code

end Xcl.IR2
