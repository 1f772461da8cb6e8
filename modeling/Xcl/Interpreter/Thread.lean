import Xcl.Lib.Exits

/-!
# The interpreter's thread

* `Form`, `Parameter`, `Item`: the forms;
* `Environment`, `Closure`, `Heap`: what forms are evaluated in and what LAMBDA makes.

A frame, an environment, a binding and an object are numbers in the order in which they were made.
-/

namespace Xcl.Interpreter

open Xcl.Exits

/-! ## Forms -/

structure Symbol where
  package : String
  name : String
  deriving DecidableEq

inductive Value
  | symbol (s : Symbol)
  | number (n : ℤ)
  | object (address : ℕ)
  deriving DecidableEq

def Value.nil : Value := .symbol ⟨"COMMON-LISP", "NIL"⟩

def Value.t : Value := .symbol ⟨"COMMON-LISP", "T"⟩

inductive TagName
  | symbol (s : Symbol)
  | integer (n : ℤ)
  deriving DecidableEq

mutual

/-- A constant is a self-evaluating object or a quoted one. -/
inductive Form
  | const (v : Value)
  | var (name : Symbol)
  | setq (name : Symbol) (form : Form)
  | progn (body : List Form)
  | cond (test consequent : Form) (alternative : Option Form)
  | let (bindings : List (Symbol × Option Form)) (specials : List Symbol) (body : List Form)
  | letStar (bindings : List (Symbol × Option Form)) (specials : List Symbol) (body : List Form)
  | lambda (lambdaList : List Parameter) (specials : List Symbol) (body : List Form)
  | call (lambdaList : List Parameter) (specials : List Symbol) (body : List Form)
      (args : List Form)
  | funcall (function : Form) (args : List Form)
  | values (args : List Form)
  | block (name : Symbol) (body : List Form)
  | returnFrom (name : Symbol) (result : Option Form)
  | catch (tag : Form) (body : List Form)
  | throw (tag result : Form)
  | tagbody (body : List Item)
  | go (name : TagName)
  | unwindProtect (form : Form) (cleanupForms : List Form)

inductive Parameter
  | symbol (s : Symbol)
  | list (keyword : Option Symbol) (var : Symbol) (initform : Option Form)
      (suppliedP : Option Symbol)

inductive Item
  | tag (name : TagName)
  | form (f : Form)

end

/-! ## Environments and closures -/

structure Binding where
  name : Symbol
  cell : Option ℕ
  specialp : Bool

structure Environment where
  vars : List Binding
  blocks : List (Symbol × ℕ)
  tags : List (TagName × ℕ)

structure OptionalParameter where
  var : Symbol
  initform : Form
  initval : Option Value
  suppliedPVar : Option Symbol

structure KeywordParameter where
  keyword : Symbol
  var : Symbol
  initform : Form
  initval : Option Value
  suppliedPVar : Option Symbol

/-- `none` as arity is `-1`. -/
structure Closure where
  required : List Symbol
  optionals : List OptionalParameter
  restvar : Option Symbol
  keywords : List KeywordParameter
  allowOtherKeys : Bool
  auxvars : List (Symbol × Option Form)
  minargs : ℕ
  maxargs : ℕ
  arity : Option ℕ
  nonConstantInitformP : Bool
  specials : List Symbol
  body : List Form
  env : ℕ

inductive Object
  | closure (c : Closure)
  | cons (car cdr : Value)

structure Heap where
  cells : ℕ → Value
  nextCell : ℕ
  environments : ℕ → Environment
  nextEnvironment : ℕ
  objects : ℕ → Option Object
  nextObject : ℕ

/-! ## Control frames -/

inductive FrameType
  | primordial
  | tagbody
  | block
  | catch
  | unwindProtect
  deriving DecidableEq

structure Tag where
  name : TagName
  tagbody : ℕ
  continuation : List Item
  index : ℕ
  activation : ℕ

structure Frame where
  type : FrameType
  lastSpecialBinding : ℕ
  lastControlFrame : Option ℕ
  lastTag : List Tag
  next : Option ℕ
  cleanupForms : List Form
  env : ℕ
  blockName : Option Symbol
  catchTag : Option Value
  activation : ℕ

def Frame.clear : Frame where
  type := .primordial
  lastSpecialBinding := 0
  lastControlFrame := none
  lastTag := []
  next := none
  cleanupForms := []
  env := 0
  blockName := none
  catchTag := none
  activation := 0

def Frame.setCleanupForms (frame : Frame) (forms : List Form) : Frame :=
  { frame with cleanupForms := forms }

def framePoolSize : ℕ := 128

structure Control where
  frames : ℕ → Frame
  size : ℕ
  pool : List ℕ
  lastControlFrame : Option ℕ

namespace Control

def setFrame (c : Control) (f : ℕ) (frame : Frame) : Control :=
  { c with frames := Function.update c.frames f frame }

def setLastControlFrame (c : Control) (f : Option ℕ) : Control := { c with lastControlFrame := f }

/-- `FramePool::release_frame`. -/
def releaseFrame (c : Control) (f : ℕ) : Control :=
  if c.pool.length < framePoolSize - 1 then { c.setFrame f .clear with pool := f :: c.pool } else c

/-- The first frame with a property on the chain; no result if the chain does not end. -/
def findFrame (c : Control) (p : Frame → Bool) : ℕ → Option ℕ → Option (Option ℕ)
  | 0, _ => none
  | _ + 1, none => some none
  | n + 1, some f => if p (c.frames f) then some (some f) else findFrame c p n (c.frames f).next

def find (c : Control) (p : Frame → Bool) : Option (Option ℕ) :=
  c.findFrame p (c.size + 1) c.lastControlFrame

end Control

/-! ## The thread -/

def multipleValuesLimit : ℕ := 20

/-- A buffer of values with its length; `-1` is the length for one value that is not in the
buffer. -/
structure Values where
  length : ℤ
  nth : ℕ → Value

/-- The values that a form has when its primary value is `primary`. -/
def Values.denote (v : Values) (primary : Value) : List Value :=
  if v.length < 0 then [primary] else (List.range v.length.toNat).map v.nth

/-- Where an exit comes from: the activation it is meant for by the text of the program, the tag of
a GO, and the values that the exit is made with. -/
structure Origin where
  goal : Option ℕ
  tag : Option TagName
  values : List Value

inductive Step
  | change
  | release (f : ℕ)
  /-- An unwinding evaluates a cleanup form; the argument says whether it has put a frame into the
  pool before. -/
  | cleanup (released : Bool)
  /-- An unwinding to a frame begins. -/
  | unwind (f : ℕ)
  /-- A closure binds a parameter as a special variable. -/
  | bindParameter (name : Symbol)
  | returnFrom (name : Symbol) (goal : Option ℕ)
  | go (name : TagName) (goal : Option ℕ) (tags : List Tag)
  | arrive (activation : ℕ) (tag : Option TagName) (origin : Origin) (delivered : List Value)

structure Moment where
  step : Step
  control : Control
  bindingStack : List (Option Value × Symbol)

structure Thread where
  control : Control
  lastTag : List Tag
  bindingStack : List (Option Value × Symbol)
  threadLocalValue : Symbol → Option Value
  symbolValue : Symbol → Option Value
  specialVariable : Symbol → Bool
  values : Values
  heap : Heap
  activations : ℕ
  trace : List Moment

def Thread.new (specialVariable : Symbol → Bool) (symbolValue : Symbol → Option Value) :
    Thread where
  control := { frames := fun _ => .clear, size := 0, pool := [], lastControlFrame := none }
  lastTag := []
  bindingStack := []
  threadLocalValue := fun _ => none
  symbolValue := symbolValue
  specialVariable := specialVariable
  values := { length := -1, nth := fun _ => .nil }
  heap :=
    { cells := fun _ => .nil
      nextCell := 0
      environments := fun _ => ⟨[], [], []⟩
      nextEnvironment := 1
      objects := fun _ => none
      nextObject := 0 }
  activations := 0
  trace := []

inductive LispError
  | unboundVariable (name : Symbol)
  | wrongNumberOfArguments
  | oddNumberOfKeywordArguments
  | unrecognizedKeywordArgument (keyword : Value)
  | invalidParameter
  | restWithoutVariable
  | notAFunction
  | tooManyValues
  | noBlock (name : Symbol)
  | noTag (name : TagName)
  | nonexistentTag (tag : Value)

/-- How a computation leaves: by a jump to the buffer of a frame, by an error that is signalled, at
a breakpoint, or where the program reads what is not there; a computation that takes more steps than
it was given leaves as well. -/
inductive Exit
  | jump (frame index : ℕ) (origin : Origin)
  | error (e : LispError)
  | int3
  | undefined
  | timeout

abbrev Interp (α : Type) : Type := Comp Thread Exit α

open Comp

/-- The control frames change, and the history has the new ones. -/
def changeControl (f : Control → Control) (step : Step) : Interp Unit :=
  modify fun s =>
    { s with
      control := f s.control
      trace := ⟨step, f s.control, s.bindingStack⟩ :: s.trace }

/-- Nothing changes, but the history has the step. -/
def record (step : Step) : Interp Unit := changeControl id step

/-! ## Values -/

def clearValues : Interp Unit := modify fun s => { s with values := { s.values with length := -1 } }

/-- `Thread::set_values` of one value. -/
def setValue (v : Value) : Interp Unit :=
  modify fun s => { s with values := ⟨1, Function.update s.values.nth 0 v⟩ }

/-- `Thread::set_values` of an array; the result is the first value. -/
def setValuesArray (args : List Value) : Interp Value := do
  modify fun s =>
    { s with
      values :=
        ⟨args.length, fun i => if i < args.length then args.getD i .nil else s.values.nth i⟩ }
  return args.headD .nil

/-- `Thread::copy_values` with a primary value. -/
def copyPrimary (v : Values) (primary : Value) : Values :=
  if v.length < 0 then ⟨1, Function.update v.nth 0 primary⟩ else v

/-- `Thread::set_values` of values that were copied. -/
def setValues (v : Values) : Interp Unit :=
  modify fun s => { s with values := if v.length = 1 then { v with length := -1 } else v }

/-! ## Special variables -/

def bindSpecial (name : Symbol) (v : Value) : Interp Unit :=
  modify fun s =>
    { s with
      bindingStack := (s.threadLocalValue name, name) :: s.bindingStack
      threadLocalValue := Function.update s.threadLocalValue name (some v) }

def unbind : ℕ → Thread → Thread
  | 0, s => s
  | n + 1, s =>
    match s.bindingStack with
    | [] => s
    | (v, name) :: rest =>
      unbind n
        { s with
          bindingStack := rest
          threadLocalValue := Function.update s.threadLocalValue name v }

/-- `unbind_to`, with the number of the bindings that remain. -/
def unbindTo (n : ℕ) : Interp Unit := modify fun s => unbind (s.bindingStack.length - n) s

def setSymbolValue (name : Symbol) (v : Value) : Interp Unit :=
  modify fun s =>
    if (s.threadLocalValue name).isSome then
      { s with threadLocalValue := Function.update s.threadLocalValue name (some v) }
    else { s with symbolValue := Function.update s.symbolValue name (some v) }

/-! ## Environments -/

def newEnvironment (parent : ℕ) : Interp ℕ := do
  let s ← get
  let h := s.heap
  modify fun s =>
    { s with
      heap :=
        { h with
          environments := Function.update h.environments h.nextEnvironment (h.environments parent)
          nextEnvironment := h.nextEnvironment + 1 } }
  return h.nextEnvironment

def changeEnvironment (env : ℕ) (f : Environment → Environment) : Interp Unit :=
  modify fun s =>
    { s with
      heap :=
        { s.heap with
          environments :=
            Function.update s.heap.environments env (f (s.heap.environments env)) } }

/-- `Environment::bind`. -/
def bindLexical (env : ℕ) (name : Symbol) (v : Value) : Interp Unit := do
  let s ← get
  let h := s.heap
  modify fun s =>
    { s with heap := { h with cells := Function.update h.cells h.nextCell v,
                              nextCell := h.nextCell + 1 } }
  changeEnvironment env fun e => { e with vars := ⟨name, some h.nextCell, false⟩ :: e.vars }

def declareSpecial (env : ℕ) (name : Symbol) : Interp Unit :=
  changeEnvironment env fun e => { e with vars := ⟨name, none, true⟩ :: e.vars }

def declareSpecials (env : ℕ) : List Symbol → Interp Unit
  | [] => return ()
  | name :: names => do
    declareSpecial env name
    declareSpecials env names

def Environment.getBinding (e : Environment) (name : Symbol) : Option Binding :=
  e.vars.find? fun b => b.name = name

def Environment.isDeclaredSpecial (e : Environment) (name : Symbol) : Bool :=
  match e.getBinding name with
  | some b => b.specialp
  | none => false

def Environment.lookup (e : Environment) (h : Heap) (name : Symbol) : Option Value :=
  (e.getBinding name).bind fun b => b.cell.map h.cells

def setCell (cell : ℕ) (v : Value) : Interp Unit :=
  modify fun s => { s with heap := { s.heap with cells := Function.update s.heap.cells cell v } }

def makeObject (o : Object) : Interp Value := do
  let s ← get
  let h := s.heap
  modify fun s =>
    { s with
      heap :=
        { h with
          objects := Function.update h.objects h.nextObject (some o)
          nextObject := h.nextObject + 1 } }
  return .object h.nextObject

/-! ## Frames -/

/-- The number of the activation that begins. -/
def newActivation : Interp ℕ := do
  let s ← get
  modify fun s => { s with activations := s.activations + 1 }
  return s.activations

/-- `Frame::init`. -/
def Frame.init (frame : Frame) (s : Thread) : Frame :=
  { frame with
    lastSpecialBinding := s.bindingStack.length
    lastControlFrame := s.control.lastControlFrame
    lastTag := s.lastTag }

def newFrame : Interp ℕ := do
  let s ← get
  changeControl (fun c => { c.setFrame c.size (Frame.clear.init s) with size := c.size + 1 })
    .change
  return s.control.size

def getFrame : Interp ℕ := do
  let s ← get
  match s.control.pool with
  | frame :: pool =>
    changeControl (fun c => { c with pool := pool }) .change
    if some frame = s.control.lastControlFrame then exit .int3 else return frame
  | [] => newFrame

def releaseFrame (f : ℕ) : Interp Unit := changeControl (·.releaseFrame f) .change

/-- The frame that begins an activation stands at the head of the chain. `Frame::set_next` stops at
a frame that would be its own successor. -/
def pushFrame (f : ℕ) (frame : Frame → Frame) : Interp ℕ := do
  let activation ← newActivation
  let s ← get
  changeControl
    (fun c => c.setFrame f { frame ((c.frames f).init s) with activation := activation }) .change
  if s.control.lastControlFrame = some f then exit .int3
  else
    changeControl
      (fun c => c.setFrame f { c.frames f with next := c.lastControlFrame }) .change
    changeControl (·.setLastControlFrame (some f)) .change
    return activation

def addBlock (name : Symbol) : Interp (ℕ × ℕ) := do
  let f ← getFrame
  let activation ← pushFrame f fun frame => { frame with type := .block, blockName := some name }
  return (f, activation)

def addCatchFrame (tag : Value) : Interp ℕ := do
  let f ← getFrame
  let _ ← pushFrame f fun frame => { frame with type := .catch, catchTag := some tag }
  return f

def addUnwindProtect (cleanupForms : List Form) (env : ℕ) : Interp ℕ := do
  let f ← getFrame
  let _ ← pushFrame f fun frame =>
    { frame with type := .unwindProtect, cleanupForms := cleanupForms, env := env }
  return f

/-- A frame that is last on the chain is not noticed before `set_next`. -/
def getTagbody : Interp (ℕ × ℕ) := do
  let s ← get
  match s.control.pool with
  | f :: pool =>
    changeControl (fun c => { c with pool := pool }) .change
    let activation ← pushFrame f fun frame => { frame with type := .tagbody }
    return (f, activation)
  | [] =>
    let f ← newFrame
    let activation ← pushFrame f fun frame => { frame with type := .tagbody }
    return (f, activation)

/-- The frame that was last when `f` was made is last again. -/
def restoreLastControlFrame (f : ℕ) : Interp Unit :=
  changeControl (fun c => c.setLastControlFrame (c.frames f).lastControlFrame) .change

def setLastTag (tags : List Tag) : Interp Unit := modify fun s => { s with lastTag := tags }

end Xcl.Interpreter
