import Mathlib.Data.List.Basic
import Mathlib.Logic.Function.Basic

/-!
# Packages

* `Symbol`, `SymbolTable`, `Package`, `State`: the objects, the global map and the list of packages.

The assertions of the source are compiled out, as in its default build.
-/

namespace Xcl.Packages

/-! ## Data -/

structure Symbol where
  name : String
  id : ℕ
  deriving DecidableEq

/-- A `SymbolHashTable`, as the map it implements. -/
abbrev SymbolTable := String → Option Symbol

def SymbolTable.put (table : SymbolTable) (symbol : Symbol) : SymbolTable :=
  Function.update table symbol.name (some symbol)

/-- The entry with the name of the symbol goes, whatever its symbol is. -/
def SymbolTable.remove (table : SymbolTable) (symbol : Symbol) : SymbolTable :=
  Function.update table symbol.name none

structure Package where
  name : Option String
  nicknames : List String
  useList : List ℕ
  usedByList : List ℕ
  internalSymbols : SymbolTable
  externalSymbols : SymbolTable
  shadowingSymbols : SymbolTable

def Package.Has (package : Package) (symbol : Symbol) : Prop :=
  package.externalSymbols symbol.name = some symbol ∨
    package.internalSymbols symbol.name = some symbol

instance (package : Package) (symbol : Symbol) : Decidable (package.Has symbol) :=
  inferInstanceAs (Decidable (_ ∨ _))

/-- The package objects are the numbers below `packageCount`. -/
structure State where
  symbols : List Symbol
  /-- `symbol->package()` -/
  home : Symbol → Option ℕ
  packages : ℕ → Package
  packageCount : ℕ
  packageMap : String → Option ℕ
  allPackages : List ℕ

inductive Designator
  | package (p : ℕ)
  | name (name : String)
  deriving DecidableEq

inductive PackageError
  | packageExists (name : String)
  | notPackageName (value : Designator)
  | symbolAccessible (symbol : Symbol) (package : ℕ)
  | symbolExported (name : String) (package used : ℕ)
  | symbolNotAccessible (symbol : Symbol) (package : ℕ)
  | nameConflict (symbol first second : Symbol)
  deriving DecidableEq

/-- The error that an operation signals, if any, and the state it leaves. -/
abbrev Result := Option PackageError × State

def Package.new (name : Option String) : Package where
  name := name
  nicknames := []
  useList := []
  usedByList := []
  internalSymbols := fun _ => none
  externalSymbols := fun _ => none
  shadowingSymbols := fun _ => none

/-- No package and no symbol has been made. -/
def State.initial : State where
  symbols := []
  home := fun _ => none
  packages := fun _ => .new none
  packageCount := 0
  packageMap := fun _ => none
  allPackages := []

namespace State

def setPackage (s : State) (p : ℕ) (package : Package) : State :=
  { s with packages := Function.update s.packages p package }

def setHome (s : State) (symbol : Symbol) (home : Option ℕ) : State :=
  { s with home := Function.update s.home symbol home }

@[simp] theorem setPackage_packages (s : State) (p : ℕ) (package : Package) :
    (s.setPackage p package).packages = Function.update s.packages p package := rfl

@[simp] theorem setPackage_home (s : State) (p : ℕ) (package : Package) :
    (s.setPackage p package).home = s.home := rfl

@[simp] theorem setPackage_packageCount (s : State) (p : ℕ) (package : Package) :
    (s.setPackage p package).packageCount = s.packageCount := rfl

@[simp] theorem setHome_packages (s : State) (symbol : Symbol) (home : Option ℕ) :
    (s.setHome symbol home).packages = s.packages := rfl

@[simp] theorem setHome_home (s : State) (symbol : Symbol) (home : Option ℕ) :
    (s.setHome symbol home).home = Function.update s.home symbol home := rfl

/-- The symbol that the next `new Symbol(name, home)` gives. -/
def freshSymbol (s : State) (name : String) : Symbol := ⟨name, s.symbols.length⟩

def makeSymbol (s : State) (name : String) (home : Option ℕ) : State :=
  { s with
    symbols := s.freshSymbol name :: s.symbols
    home := Function.update s.home (s.freshSymbol name) home }

@[simp] theorem makeSymbol_home (s : State) (name : String) (home : Option ℕ) :
    (s.makeSymbol name home).home = Function.update s.home (s.freshSymbol name) home := rfl

@[simp] theorem freshSymbol_name (s : State) (name : String) :
    (s.freshSymbol name).name = name := rfl

/-! ## Looking up -/

/-- The symbol in the package's own tables. -/
def present (s : State) (p : ℕ) (name : String) : Option Symbol :=
  (s.packages p).externalSymbols name <|> (s.packages p).internalSymbols name

def inherited (s : State) (name : String) : List ℕ → Option Symbol
  | [] => none
  | q :: rest => (s.packages q).externalSymbols name <|> s.inherited name rest

def findSymbol (s : State) (p : ℕ) (name : String) : Option Symbol :=
  s.present p name <|> s.inherited name (s.packages p).useList

/-! ## Operations on the tables -/

variable (keyword : ℕ)

/-- `exportp` is only given by the kernel itself. -/
def intern (s : State) (p : ℕ) (name : String) (exportp : Bool) : State :=
  match s.findSymbol p name with
  | some _ => s
  | none =>
    let symbol := s.freshSymbol name
    let package := s.packages p
    (s.makeSymbol name (some p)).setPackage p
      (if p = keyword ∨ exportp then
        { package with externalSymbols := package.externalSymbols.put symbol }
      else { package with internalSymbols := package.internalSymbols.put symbol })

def importSymbol (s : State) (p : ℕ) (symbol : Symbol) : Result :=
  let package := s.packages p
  let imported := s.setPackage p
    { package with internalSymbols := package.internalSymbols.put symbol }
  if s.home symbol = some p then (none, s)
  else
    match (s.findSymbol p symbol.name).filter (· ≠ symbol) with
    | some sym => (some (.symbolAccessible sym p), s)
    | none => (none, if s.home symbol = none then imported.setHome symbol (some p) else imported)

def exportConflict (s : State) (symbol : Symbol) : List ℕ → Option ℕ
  | [] => none
  | q :: rest =>
    match (s.packages q).externalSymbols symbol.name with
    | some sym => if sym ≠ symbol then some q else s.exportConflict symbol rest
    | none => s.exportConflict symbol rest

/-- The symbol leaves the internal table and enters the external one. -/
def makeExternal (s : State) (p : ℕ) (symbol : Symbol) : State :=
  let package := s.packages p
  s.setPackage p
    { package with
      internalSymbols := package.internalSymbols.remove symbol
      externalSymbols := package.externalSymbols.put symbol }

def exportSymbol (s : State) (p : ℕ) (symbol : Symbol) : Result :=
  match s.exportConflict symbol (s.packages p).usedByList with
  | some q => (some (.symbolExported symbol.name q p), s)
  | none =>
    if s.home symbol = some p then
      if (s.packages p).externalSymbols symbol.name = some symbol then (none, s)
      else (none, s.makeExternal p symbol)
    else if s.findSymbol p symbol.name ≠ some symbol then (some (.symbolNotAccessible symbol p), s)
    else (none, s.makeExternal p symbol)

def unexportSymbol (s : State) (p : ℕ) (symbol : Symbol) : Result :=
  let package := s.packages p
  if s.home symbol = some p then
    if package.externalSymbols symbol.name = some symbol then
      (none, s.setPackage p
        { package with
          externalSymbols := package.externalSymbols.remove symbol
          internalSymbols := package.internalSymbols.put symbol })
    else (none, s)
  else if package.useList.any
      (fun q => (s.packages q).externalSymbols symbol.name = some symbol) then (none, s)
  else (some (.symbolNotAccessible symbol p), s)

/-- Two packages of the list have different external symbols with the name; `sym` is the first one
found so far. -/
def uninternConflict (s : State) (name : String) (sym : Option Symbol) :
    List ℕ → Option (Symbol × Symbol)
  | [] => none
  | q :: rest =>
    match (s.packages q).externalSymbols name, sym with
    | none, _ => s.uninternConflict name sym rest
    | some t, none => s.uninternConflict name (some t) rest
    | some t, some u => if u ≠ t then some (u, t) else s.uninternConflict name sym rest

/-- The names of a shadowing symbol would conflict without it. -/
def uninternError (s : State) (p : ℕ) (symbol : Symbol) : Option PackageError :=
  if (s.packages p).shadowingSymbols symbol.name = some symbol then
    (s.uninternConflict symbol.name none (s.packages p).useList).map
      fun (first, second) => .nameConflict symbol first second
  else none

def uninternSymbol (s : State) (p : ℕ) (symbol : Symbol) : Result :=
  match s.uninternError p symbol with
  | some e => (some e, s)
  | none =>
    let package := s.packages p
    let s' := if s.home symbol = some p then s.setHome symbol none else s
    if package.internalSymbols symbol.name = some symbol then
      (none, s'.setPackage p
        { package with internalSymbols := package.internalSymbols.remove symbol })
    else if package.externalSymbols symbol.name = some symbol then
      (none, s'.setPackage p
        { package with externalSymbols := package.externalSymbols.remove symbol })
    else (none, s)

def shadow (s : State) (p : ℕ) (name : String) : State :=
  let package := s.packages p
  match s.present p name with
  | some symbol =>
    s.setPackage p { package with shadowingSymbols := package.shadowingSymbols.put symbol }
  | none =>
    match package.shadowingSymbols name with
    | some _ => s
    | none =>
      let symbol := s.freshSymbol name
      (s.makeSymbol name (some p)).setPackage p
        { package with
          internalSymbols := package.internalSymbols.put symbol
          shadowingSymbols := package.shadowingSymbols.put symbol }

def shadowingImport (s : State) (p : ℕ) (symbol : Symbol) : State :=
  let package := s.packages p
  let displaced :=
    match package.internalSymbols symbol.name with
    | some _ => { package with internalSymbols := package.internalSymbols.remove symbol }
    | none => { package with externalSymbols := package.externalSymbols.remove symbol }
  s.setPackage p
    { displaced with
      internalSymbols := displaced.internalSymbols.put symbol
      shadowingSymbols := displaced.shadowingSymbols.put symbol }

/-! ## Operations on the packages -/

def usePackage (s : State) (p q : ℕ) : State :=
  if q ∈ (s.packages p).useList then s
  else
    let s := s.setPackage p { s.packages p with useList := q :: (s.packages p).useList }
    s.setPackage q { s.packages q with usedByList := p :: (s.packages q).usedByList }

def unusePackage (s : State) (p q : ℕ) : State :=
  if q ∈ (s.packages p).useList then
    let s := s.setPackage p
      { s.packages p with useList := (s.packages p).useList.filter (· ≠ q) }
    s.setPackage q
      { s.packages q with usedByList := (s.packages q).usedByList.filter (· ≠ p) }
  else s

theorem usePackage_useList {s : State} {p q r : ℕ} (h : r ∉ (s.packages p).useList) :
    ((s.usePackage p r).packages q).useList =
      if q = p then r :: (s.packages p).useList else (s.packages q).useList := by
  unfold usePackage
  rw [if_neg h]
  by_cases hr : q = r <;> by_cases hp : q = p <;> by_cases hrp : r = p <;> simp_all

theorem usePackage_usedByList {s : State} {p q r : ℕ} (h : r ∉ (s.packages p).useList) :
    ((s.usePackage p r).packages q).usedByList =
      if q = r then p :: (s.packages r).usedByList else (s.packages q).usedByList := by
  unfold usePackage
  rw [if_neg h]
  by_cases hr : q = r <;> by_cases hp : q = p <;> by_cases hrp : r = p <;> simp_all

theorem unusePackage_useList {s : State} {p q r : ℕ} (h : r ∈ (s.packages p).useList) :
    ((s.unusePackage p r).packages q).useList =
      if q = p then (s.packages p).useList.filter (· ≠ r) else (s.packages q).useList := by
  unfold unusePackage
  rw [if_pos h]
  by_cases hr : q = r <;> by_cases hp : q = p <;> by_cases hrp : r = p <;> simp_all

theorem unusePackage_usedByList {s : State} {p q r : ℕ} (h : r ∈ (s.packages p).useList) :
    ((s.unusePackage p r).packages q).usedByList =
      if q = r then (s.packages r).usedByList.filter (· ≠ p) else (s.packages q).usedByList := by
  unfold unusePackage
  rw [if_pos h]
  by_cases hr : q = r <;> by_cases hp : q = p <;> by_cases hrp : r = p <;> simp_all

def putName (s : State) (name : String) (p : ℕ) : State :=
  { s with packageMap := Function.update s.packageMap name (some p) }

def removeName (s : State) (name : String) : State :=
  { s with packageMap := Function.update s.packageMap name none }

def addNickname (s : State) (p : ℕ) (nickname : String) : Result :=
  let push (s : State) : State :=
    if nickname ∈ (s.packages p).nicknames then s
    else s.setPackage p { s.packages p with nicknames := nickname :: (s.packages p).nicknames }
  match s.packageMap nickname with
  | none => (none, push (s.putName nickname p))
  | some q => if q ≠ p then (some (.packageExists nickname), s) else (none, push s)

def coerceToPackage (s : State) : Designator → Option ℕ
  | .package p => some p
  | .name name => s.packageMap name

/-- `new Package(name)`, which enters the map and the list of all packages. -/
def newPackage (s : State) (name : String) : State :=
  { s with
    packages := Function.update s.packages s.packageCount (.new (some name))
    packageCount := s.packageCount + 1
    packageMap := Function.update s.packageMap name (some s.packageCount)
    allPackages := s.packageCount :: s.allPackages }

def addNicknames (s : State) (p : ℕ) : List String → Result
  | [] => (none, s)
  | nickname :: rest =>
    match s.addNickname p nickname with
    | (some e, s) => (some e, s)
    | (none, s) => s.addNicknames p rest

def usePackages (s : State) (p : ℕ) : List Designator → Result
  | [] => (none, s)
  | d :: rest =>
    match s.coerceToPackage d with
    | some q => (s.usePackage p q).usePackages p rest
    | none => (some (.notPackageName d), s)

/-- The names and the packages to use are checked before the package is made. -/
def makePackage (s : State) (name : String) (nicknames : List String) (use : List Designator) :
    Result :=
  match (name :: nicknames).find? (fun n => (s.packageMap n).isSome) with
  | some n => (some (.packageExists n), s)
  | none =>
    match use.find? (fun d => (s.coerceToPackage d).isNone) with
    | some d => (some (.notPackageName d), s)
    | none =>
      match (s.newPackage name).addNicknames s.packageCount nicknames with
      | (some e, s') => (some e, s')
      | (none, s') => s'.usePackages s.packageCount use

/-- The name and the nicknames of the package leave the map. -/
def removeNames (s : State) (p : ℕ) : State :=
  (s.packages p).nicknames.foldl removeName
    (match (s.packages p).name with
    | some name => s.removeName name
    | none => s)

/-- The string is a new object, so `memq` never finds it among the nicknames. -/
def pushNickname (p : ℕ) (s : State) (nickname : String) : State :=
  (s.putName nickname p).setPackage p
    { s.packages p with nicknames := nickname :: (s.packages p).nicknames }

def renamePackage (s : State) (p : ℕ) (newName : String) (newNicknames : List String) : Result :=
  match (newName :: newNicknames).find? (fun n => (s.packageMap n).any (· ≠ p)) with
  | some n => (some (.packageExists n), s)
  | none =>
    let renamed := ((s.removeNames p).putName newName p).setPackage p
      { s.packages p with name := some newName, nicknames := [] }
    (none, newNicknames.foldl (pushNickname p) renamed)

/-- `Package::delete_package`: the lists of the packages it uses and of the packages that use it
stay. -/
def deletePackageInternal (s : State) (p : ℕ) : State :=
  match (s.packages p).name with
  | none => s
  | some _ =>
    let package := s.packages p
    { s.removeNames p with
      packages := Function.update s.packages p
        { package with
          name := none
          nicknames := []
          externalSymbols := fun _ => none
          internalSymbols := fun _ => none }
      allPackages := s.allPackages.filter (· ≠ p)
      home := fun symbol =>
        if s.home symbol = some p ∧ package.Has symbol then none else s.home symbol }

/-- What `delete-package` deletes: `find-package` gives `NIL` for an unknown name, which is then
taken as the designator. -/
def deletionTarget (s : State) (d : Designator) : Option ℕ :=
  match s.coerceToPackage d with
  | some p => some p
  | none => s.packageMap "NIL"

def deletePackage (s : State) (d : Designator) : Result :=
  match s.deletionTarget d with
  | some p => (none, s.deletePackageInternal p)
  | none => (some (.notPackageName (.name "NIL")), s)

end State

/-! ## Runs -/

inductive Op
  | makeSymbol (name : String)
  | makePackage (name : String) (nicknames : List String) (use : List Designator)
  | intern (p : ℕ) (name : String) (exportp : Bool)
  | importSymbol (p : ℕ) (symbol : Symbol)
  | exportSymbol (p : ℕ) (symbol : Symbol)
  | unexportSymbol (p : ℕ) (symbol : Symbol)
  | uninternSymbol (p : ℕ) (symbol : Symbol)
  | shadow (p : ℕ) (name : String)
  | shadowingImport (p : ℕ) (symbol : Symbol)
  | usePackage (p q : ℕ)
  | unusePackage (p q : ℕ)
  | addNickname (p : ℕ) (nickname : String)
  | renamePackage (p : ℕ) (newName : String) (newNicknames : List String)
  | deletePackage (d : Designator)
  deriving DecidableEq

def exec (keyword : ℕ) (s : State) : Op → Result
  | .makeSymbol name => (none, s.makeSymbol name none)
  | .makePackage name nicknames use => s.makePackage name nicknames use
  | .intern p name exportp => (none, s.intern keyword p name exportp)
  | .importSymbol p symbol => s.importSymbol p symbol
  | .exportSymbol p symbol => s.exportSymbol p symbol
  | .unexportSymbol p symbol => s.unexportSymbol p symbol
  | .uninternSymbol p symbol => s.uninternSymbol p symbol
  | .shadow p name => (none, s.shadow p name)
  | .shadowingImport p symbol => (none, s.shadowingImport p symbol)
  | .usePackage p q => (none, s.usePackage p q)
  | .unusePackage p q => (none, s.unusePackage p q)
  | .addNickname p nickname => s.addNickname p nickname
  | .renamePackage p newName newNicknames => s.renamePackage p newName newNicknames
  | .deletePackage d => s.deletePackage d

def Designator.Known (s : State) : Designator → Prop
  | .package p => p < s.packageCount
  | .name _ => True

instance (s : State) : DecidablePred (Designator.Known s)
  | .package p => inferInstanceAs (Decidable (p < s.packageCount))
  | .name _ => inferInstanceAs (Decidable True)

/-- The arguments are objects that exist. -/
def Op.Known (s : State) : Op → Prop
  | .makeSymbol _ => True
  | .makePackage _ _ use => ∀ d ∈ use, Designator.Known s d
  | .intern p _ _ | .shadow p _ | .addNickname p _ | .renamePackage p _ _ => p < s.packageCount
  | .importSymbol p symbol | .exportSymbol p symbol | .unexportSymbol p symbol
  | .uninternSymbol p symbol | .shadowingImport p symbol =>
    p < s.packageCount ∧ symbol ∈ s.symbols
  | .usePackage p q | .unusePackage p q => p < s.packageCount ∧ q < s.packageCount
  | .deletePackage d => Designator.Known s d

inductive RunsTo (keyword : ℕ) (meets : State → Op → Prop) : State → Prop
  | initial : RunsTo keyword meets .initial
  | step {s : State} {op : Op} : RunsTo keyword meets s → op.Known s → meets s op →
    RunsTo keyword meets (exec keyword s op).2

theorem RunsTo.invariant {keyword : ℕ} {meets : State → Op → Prop} {Inv : State → Prop}
    (hinitial : Inv .initial)
    (hstep : ∀ s op, Inv s → op.Known s → meets s op → Inv (exec keyword s op).2)
    {s : State} (hrun : RunsTo keyword meets s) : Inv s := by
  induction hrun with
  | initial => exact hinitial
  | step _ hknown hmeets ih => exact hstep _ _ ih hknown hmeets

instance (s : State) : DecidablePred (Op.Known s)
  | .makeSymbol _ => inferInstanceAs (Decidable True)
  | .makePackage _ _ use => inferInstanceAs (Decidable (∀ d ∈ use, Designator.Known s d))
  | .intern _ _ _ | .shadow _ _ | .addNickname _ _ | .renamePackage _ _ _ =>
    inferInstanceAs (Decidable (_ < _))
  | .importSymbol _ _ | .exportSymbol _ _ | .unexportSymbol _ _ | .uninternSymbol _ _
  | .shadowingImport _ _ | .usePackage _ _ | .unusePackage _ _ =>
    inferInstanceAs (Decidable (_ ∧ _))
  | .deletePackage d => inferInstanceAs (Decidable (Designator.Known s d))

/-- The state after a list of operations. -/
def runOps (keyword : ℕ) (s : State) (ops : List Op) : State :=
  ops.foldl (fun s op => (exec keyword s op).2) s

/-- The operations of the list are the steps of a run. -/
def AllMeet (keyword : ℕ) (meets : State → Op → Prop) : State → List Op → Prop
  | _, [] => True
  | s, op :: rest => op.Known s ∧ meets s op ∧ AllMeet keyword meets (exec keyword s op).2 rest

instance {keyword : ℕ} {meets : State → Op → Prop} [∀ s op, Decidable (meets s op)] :
    ∀ s ops, Decidable (AllMeet keyword meets s ops)
  | _, [] => inferInstanceAs (Decidable True)
  | s, op :: rest =>
    have : Decidable (AllMeet keyword meets (exec keyword s op).2 rest) :=
      instDecidableAllMeet (exec keyword s op).2 rest
    inferInstanceAs (Decidable (_ ∧ _ ∧ _))

theorem RunsTo.runOps {keyword : ℕ} {meets : State → Op → Prop} {s : State} {ops : List Op}
    (hrun : RunsTo keyword meets s) (hops : AllMeet keyword meets s ops) :
    RunsTo keyword meets (runOps keyword s ops) := by
  induction ops generalizing s with
  | nil => exact hrun
  | cons op rest ih =>
    obtain ⟨hknown, hmeets, hrest⟩ := hops
    exact ih (hrun.step hknown hmeets) hrest

end Xcl.Packages
