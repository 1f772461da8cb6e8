import Mathlib.Data.List.Basic
import Mathlib.Logic.Function.Basic

/-!
# Generic function invocation

* `Method`, `GenericFunction`: methods without `EQL` specializers, and what does not change in a
  generic function.

A class is redefined by new class precedence lists for it and for its subclasses, one at a time.
Arguments are modelled by their classes.
-/

namespace Xcl.Dispatch

variable {Cls : Type} [DecidableEq Cls]

/-! ## Data -/

structure Method (Cls : Type) where
  id : ℕ
  qualifiers : List String
  specializers : List Cls
  /-- The method has a fast function: it has only required parameters and calls no next method. -/
  fastFunction : Bool
  deriving DecidableEq

/-- What is called, in this order. -/
structure EffectiveMethod (Cls : Type) where
  arounds : List (Method Cls)
  befores : List (Method Cls)
  primaries : List (Method Cls)
  afters : List (Method Cls)
  deriving DecidableEq

/-- The method combination: the standard one, or one that `compute-effective-method` implements. -/
inductive MethodCombination (Cls : Type)
  | standard
  | other (computeEffectiveMethod : List (Method Cls) → Option (EffectiveMethod Cls))

/-- What does not change in a generic function; `sort` is the sort of the library. -/
structure GenericFunction (Cls : Type) where
  minargs : ℕ
  argumentPrecedenceOrder : Option (List ℕ)
  methodCombination : MethodCombination Cls
  sort : (Method Cls → Method Cls → Bool) → List (Method Cls) → List (Method Cls)

/-- What a call comes to. -/
inductive Outcome (Cls : Type)
  | wrongNumberOfArguments
  | noApplicableMethod
  | invalid
  | runs (effectiveMethod : EffectiveMethod Cls)
  deriving DecidableEq

/-! ## The computation without a cache -/

section Uncached

variable (precedenceList : Cls → List Cls)

/-- `subclassp` for every specializer. -/
def methodApplicableP : List Cls → List Cls → Bool
  | [], _ => true
  | _ :: _, [] => false
  | specializer :: specializers, c :: classes =>
    decide (specializer ∈ precedenceList c) && methodApplicableP specializers classes

/-- The second specializer stands behind the first one in the class precedence list. -/
def subSpecializerP (spec₁ spec₂ c : Cls) : Bool :=
  decide (spec₂ ∈ ((precedenceList c).dropWhile (· ≠ spec₁)).tail)

/-- The first specializers that differ decide. -/
def moreSpecificFrom : List (Cls × Cls × Cls) → Bool
  | [] => false
  | (spec₁, spec₂, c) :: rest =>
    if spec₁ = spec₂ then moreSpecificFrom rest else subSpecializerP precedenceList spec₁ spec₂ c

def stdMethodMoreSpecificP (order : Option (List ℕ)) (classes : List Cls)
    (m₁ m₂ : Method Cls) : Bool :=
  let triples := m₁.specializers.zip (m₂.specializers.zip classes)
  moreSpecificFrom precedenceList
    (match order with
    | some indices => indices.filterMap (triples[·]?)
    | none => triples)

def computeApplicableMethods (gf : GenericFunction Cls) (methods : List (Method Cls))
    (classes : List Cls) : List (Method Cls) :=
  let applicable := (methods.filter fun m =>
    methodApplicableP precedenceList m.specializers classes).reverse
  match applicable with
  | [] => []
  | [m] => [m]
  | m₁ :: m₂ :: rest =>
    gf.sort (stdMethodMoreSpecificP precedenceList gf.argumentPrecedenceOrder
      (classes.take gf.minargs)) (m₁ :: m₂ :: rest)

end Uncached

/-- The methods with a qualifier keep their order, but the `:AFTER` methods. -/
def computeStandardEffectiveMethod (methods : List (Method Cls)) : Option (EffectiveMethod Cls) :=
  let withQualifiers (qualifiers : List String) := methods.filter (·.qualifiers = qualifiers)
  if methods.all (·.qualifiers ∈ [[], [":BEFORE"], [":AFTER"], [":AROUND"]]) ∧
      withQualifiers [] ≠ [] then
    some ⟨withQualifiers [":AROUND"], withQualifiers [":BEFORE"], withQualifiers [],
      (withQualifiers [":AFTER"]).reverse⟩
  else none

def computeEffectiveMethod (gf : GenericFunction Cls) (methods : List (Method Cls)) :
    Option (EffectiveMethod Cls) :=
  match gf.methodCombination with
  | .standard => computeStandardEffectiveMethod methods
  | .other compute => compute methods

/-- What a call comes to with the given methods and class precedence lists. -/
def uncached (gf : GenericFunction Cls) (precedenceList : Cls → List Cls)
    (methods : List (Method Cls)) (classes : List Cls) : Outcome Cls :=
  if classes.length < gf.minargs then .wrongNumberOfArguments
  else
    match computeApplicableMethods precedenceList gf methods classes with
    | [] => .noApplicableMethod
    | m :: rest =>
      match computeEffectiveMethod gf (m :: rest) with
      | none => .invalid
      | some effectiveMethod => .runs effectiveMethod

/-! ## The discriminating function -/

inductive Dfun (Cls : Type)
  | fast (m : Method Cls)
  | lookup

structure State (Cls : Type) where
  precedenceList : Cls → List Cls
  methods : List (Method Cls)
  dfun : Dfun Cls
  classesToEmfTable : List Cls → Option (EffectiveMethod Cls)

def stdComputeDiscriminatingFunction (gf : GenericFunction Cls) (methods : List (Method Cls)) :
    Dfun Cls :=
  match gf.methodCombination, methods with
  | .standard, [m] => if gf.minargs = 1 ∧ m.fastFunction then .fast m else .lookup
  | _, _ => .lookup

/-- The table is emptied. -/
def finalizeGenericFunction (gf : GenericFunction Cls) (s : State Cls) : State Cls :=
  { s with
    dfun := stdComputeDiscriminatingFunction gf s.methods
    classesToEmfTable := fun _ => none }

/-- Too many arguments are refused by the lambda list of the method, whoever calls it. -/
def call (gf : GenericFunction Cls) (s : State Cls) (classes : List Cls) :
    Outcome Cls × State Cls :=
  match s.dfun with
  | .fast m =>
    if classes.length < 1 then (.wrongNumberOfArguments, s) else (.runs ⟨[], [], [m], []⟩, s)
  | .lookup =>
    if classes.length < gf.minargs then (.wrongNumberOfArguments, s)
    else
      let key := classes.take gf.minargs
      match s.classesToEmfTable key with
      | some effectiveMethod => (.runs effectiveMethod, s)
      | none =>
        match uncached gf s.precedenceList s.methods classes with
        | .runs effectiveMethod =>
          (.runs effectiveMethod,
            if key = [] then s
            else
              { s with
                classesToEmfTable :=
                  Function.update s.classesToEmfTable key (some effectiveMethod) })
        | outcome => (outcome, s)

/-! ## Operations -/

def removeMethod (gf : GenericFunction Cls) (s : State Cls) (m : Method Cls) : State Cls :=
  finalizeGenericFunction gf { s with methods := s.methods.filter (· ≠ m) }

def addMethod (gf : GenericFunction Cls) (s : State Cls) (m : Method Cls) : State Cls :=
  if m ∈ s.methods ∨ m.specializers.length ≠ gf.minargs then s
  else
    let s :=
      match s.methods.find? fun old =>
        old.qualifiers = m.qualifiers ∧ old.specializers = m.specializers with
      | some old => removeMethod gf s old
      | none => s
    finalizeGenericFunction gf { s with methods := m :: s.methods }

/-- `update-class` sets the class precedence list of one class. -/
def setPrecedenceList (s : State Cls) (c : Cls) (classes : List Cls) : State Cls :=
  { s with precedenceList := Function.update s.precedenceList c classes }

inductive Op (Cls : Type)
  | call (classes : List Cls)
  | addMethod (m : Method Cls)
  | removeMethod (m : Method Cls)
  | setPrecedenceList (c : Cls) (classes : List Cls)

def exec (gf : GenericFunction Cls) (s : State Cls) : Op Cls → State Cls
  | .call classes => (call gf s classes).2
  | .addMethod m => addMethod gf s m
  | .removeMethod m => removeMethod gf s m
  | .setPrecedenceList c classes => setPrecedenceList s c classes

/-- A generic function without methods. -/
def start (gf : GenericFunction Cls) (precedenceList : Cls → List Cls) : State Cls :=
  finalizeGenericFunction gf ⟨precedenceList, [], .lookup, fun _ => none⟩

inductive RunsTo (gf : GenericFunction Cls) (meets : State Cls → Op Cls → Prop) : State Cls → Prop
  | start (precedenceList : Cls → List Cls) : RunsTo gf meets (start gf precedenceList)
  | step {s : State Cls} {op : Op Cls} : RunsTo gf meets s → meets s op →
    RunsTo gf meets (exec gf s op)

end Xcl.Dispatch
