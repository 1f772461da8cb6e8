import Mathlib.Data.List.Count
import Mathlib.Logic.Function.Basic
import Mathlib.Tactic

/-!
# The graph of classes

* `Class`, `State`: the class objects with the two directions of their links, and the classes that
  `find-class` finds;
* `canonicalizeDirectSuperclasses`, which makes forward-referenced classes.

The parts of the initialization that touch no link are the parameters of a call: whether the slots
and initargs are accepted, and whether the definition of the slots, of their accessors and the
finalization complete. A call that signals an error keeps what it has changed before.
-/

namespace Xcl.ClassGraph

/-! ## Data -/

inductive Kind
  | builtIn
  | forwardReferenced
  | standard
  | funcallable
  deriving DecidableEq

structure Class where
  name : String
  kind : Kind
  directSuperclasses : List ℕ
  directSubclasses : List ℕ
  deriving DecidableEq

/-- The class objects are the numbers below `count`. -/
structure State where
  classes : ℕ → Class
  count : ℕ
  findClass : String → Option ℕ

inductive Specifier
  | object (c : ℕ)
  | name (name : String)
  deriving DecidableEq

/-- The parts of the initialization that touch no link. -/
structure Initialization where
  /-- There are no duplicate slots or initargs. -/
  argumentsOk : Bool
  /-- The definition of the slots and the finalization complete. -/
  completes : Bool
  deriving DecidableEq

namespace State

def setClass (s : State) (c : ℕ) (object : Class) : State :=
  { s with classes := Function.update s.classes c object }

def setFindClass (s : State) (name : String) (c : ℕ) : State :=
  { s with findClass := Function.update s.findClass name (some c) }

/-- A new class object without links. -/
def allocate (s : State) (name : String) (kind : Kind) : State :=
  { s with
    classes := Function.update s.classes s.count ⟨name, kind, [], []⟩
    count := s.count + 1 }

/-! ## The code -/

/-- Unknown names become forward-referenced classes. -/
def canonicalizeDirectSuperclasses (s : State) : List Specifier → State × List ℕ
  | [] => (s, [])
  | .object c :: rest =>
    let (s, classes) := s.canonicalizeDirectSuperclasses rest
    (s, c :: classes)
  | .name name :: rest =>
    match s.findClass name with
    | some c =>
      let (s, classes) := s.canonicalizeDirectSuperclasses rest
      (s, c :: classes)
    | none =>
      let c := s.count
      let s := (s.allocate name .forwardReferenced).setFindClass name c
      let (s, classes) := s.canonicalizeDirectSuperclasses rest
      (s, c :: classes)

/-- The methods of `validate-superclass`, the most specific one first. -/
def validateSuperclass (s : State) (superclass : ℕ) : Bool :=
  match (s.classes superclass).kind with
  | .forwardReferenced => true
  | .builtIn => s.findClass "STREAM" = some superclass
  | .standard | .funcallable => true

def pushDirectSubclass (c : ℕ) (s : State) (superclass : ℕ) : State :=
  s.setClass superclass
    { s.classes superclass with
      directSubclasses := c :: (s.classes superclass).directSubclasses }

/-- The direct superclasses of a class that is defined with the given ones, if `find-class` finds
the default. -/
def superclassesOrDefault (s : State) (directSuperclasses : List ℕ) : Option (List ℕ) :=
  if directSuperclasses = [] then (s.findClass "STANDARD-OBJECT").map fun c => [c]
  else some directSuperclasses

def acceptedSuperclasses (s : State) (directSuperclasses : List ℕ) : Option (List ℕ) :=
  (s.superclassesOrDefault directSuperclasses).filter fun supers => supers.all s.validateSuperclass

/-- The links of the class are made; the result says whether the initialization completes. -/
def stdAfterInitializationForClasses (s : State) (c : ℕ) (directSuperclasses : List ℕ)
    (init : Initialization) : State × Bool :=
  match s.acceptedSuperclasses directSuperclasses with
  | some supers =>
    let s := s.setClass c { s.classes c with directSuperclasses := supers }
    (supers.foldl (pushDirectSubclass c) s, init.completes)
  | none => (s, false)

/-- The new class is the last class object. -/
def makeInstanceStandardClass (s : State) (name : String) (kind : Kind)
    (directSuperclasses : List ℕ) (init : Initialization) : State × Bool :=
  (s.allocate name kind).stdAfterInitializationForClasses s.count directSuperclasses init

/-- In the subclasses of a forward-referenced class, the class that replaces it. -/
def substituteSuperclass (c new : ℕ) (s : State) (subclass : ℕ) : State :=
  s.setClass subclass
    { s.classes subclass with
      directSuperclasses :=
        (s.classes subclass).directSuperclasses.map fun d => if d = c then new else d }

def properClass (s : State) (name : String) : Option ℕ :=
  (s.findClass name).filter fun c => (s.classes c).name = name

def ensureClass (s : State) (name : String) (directSuperclasses : List Specifier)
    (metaclass : Kind) (init : Initialization) : State :=
  if init.argumentsOk then
    let (s', supers) := s.canonicalizeDirectSuperclasses directSuperclasses
    match s.properClass name with
    | none =>
      match s'.makeInstanceStandardClass name metaclass supers init with
      | (s'', true) => s''.setFindClass name s'.count
      | (s'', false) => s''
    | some c =>
      match (s'.classes c).kind with
      | .builtIn => s'
      | .forwardReferenced =>
        match s'.makeInstanceStandardClass name .standard supers init with
        | (s'', true) =>
          ((s''.classes c).directSubclasses.foldl (substituteSuperclass c s'.count)
            (s''.setFindClass name s'.count))
        | (s'', false) => s''
      | .standard | .funcallable => (s'.stdAfterInitializationForClasses c supers init).1
  else s

end State

/-! ## Runs -/

/-- A call of `ensure-class`. -/
structure Call where
  name : String
  directSuperclasses : List Specifier
  metaclass : Kind
  init : Initialization
  deriving DecidableEq

def exec (s : State) (call : Call) : State :=
  s.ensureClass call.name call.directSuperclasses call.metaclass call.init

/-- The class objects among the arguments exist. -/
def Call.Known (s : State) (call : Call) : Prop :=
  ∀ c, .object c ∈ call.directSuperclasses → c < s.count

/-- The states of the runs from `start` in which every call meets a condition on the state before
it. -/
inductive RunsTo (start : State) (meets : State → Call → Prop) : State → Prop
  | start : RunsTo start meets start
  | step {s : State} {call : Call} : RunsTo start meets s → call.Known s → meets s call →
    RunsTo start meets (exec s call)

end Xcl.ClassGraph
