import Xcl.Lib.Exits
import Xcl.Packages.Model

/-!
# Package definitions

* `Datum`: the arguments of the functions that define packages;
* `Action`: computations on the registry that may signal an error.
-/

namespace Xcl.Packages

open Xcl.Exits

/-- The objects that are told apart here. -/
inductive Datum
  | nil
  | cons (car cdr : Datum)
  | string (s : String)
  | symbol (symbol : Symbol)
  | character (c : Char)
  | package (p : ℕ)
  | other
  deriving DecidableEq

inductive Failure
  | package (e : PackageError)
  | notPackageName (value : Datum)
  | noSymbol (name : String) (package : ℕ)
  | notList (value : Datum)
  | notString (value : Datum)
  | notStringDesignator (value : Datum)

abbrev Action (α : Type) : Type := Comp State Failure α

/-! ## Arguments -/

def Datum.stringp? : Datum → Option String
  | .string s => some s
  | _ => none

/-- The name that a string designator stands for. -/
def Datum.string? : Datum → Option String
  | .string s => some s
  | .symbol sym => some sym.name
  | .nil => some "NIL"
  | .character c => some (String.singleton c)
  | _ => none

def string (d : Datum) : Action String :=
  match d.string? with
  | some s => return s
  | none => Comp.exit (.notStringDesignator d)

def checkString (d : Datum) : Action String :=
  match d.stringp? with
  | some s => return s
  | none => Comp.exit (.notString d)

def checkList : Datum → Action Datum
  | .nil => return .nil
  | .cons a d => return .cons a d
  | d => Comp.exit (.notList d)

def car : Datum → Action Datum
  | .nil => return .nil
  | .cons a _ => return a
  | d => Comp.exit (.notList d)

def cdr : Datum → Action Datum
  | .nil => return .nil
  | .cons _ d => return d
  | d => Comp.exit (.notList d)

/-- `while (list != NIL) { ... car(list) ... ; list = xcdr(list); }` -/
def forEach (body : Datum → Action Unit) : Datum → Action Unit
  | .nil => return ()
  | .cons a d => do
    body a
    forEach body d
  | d => Comp.exit (.notList d)

/-! ## The registry -/

def perform (f : State → Result) : Action Unit := fun s =>
  match f s with
  | (none, s') => (.ok (), s')
  | (some e, s') => (.error (.package e), s')

def findPackage (name : String) : Action (Option ℕ) := do
  let s ← Comp.get
  return s.packageMap name

def coerceToPackageAction : Datum → Action ℕ
  | .package p => return p
  | d => do
    let name ← string d
    match ← findPackage name with
    | some p => return p
    | none => Comp.exit (.notPackageName d)

def checkNickname (nick : Datum) : Action Unit := do
  let name ← string nick
  match ← findPackage name with
  | some _ => Comp.exit (.package (.packageExists name))
  | none => return ()

/-- `new Package(name)` -/
def newPackageAction (name : String) : Action ℕ := do
  let s ← Comp.get
  Comp.modify (·.newPackage name)
  return s.packageCount

def addNicknameAction (p : ℕ) (nick : Datum) : Action Unit := do
  let nickname ← string nick
  perform (·.addNickname p nickname)

def usePackageAction (p : ℕ) (d : Datum) : Action Unit := do
  let q ← coerceToPackageAction d
  perform fun s => (none, s.usePackage p q)

def checkPackage (d : Datum) : Action Unit := do
  let _ ← coerceToPackageAction d
  return ()

def makePackageInternal (name nicknames use : Datum) : Action ℕ := do
  let packageName ← string name
  match ← findPackage packageName with
  | some _ => Comp.exit (.package (.packageExists packageName))
  | none =>
    let nicknames ← checkList nicknames
    forEach checkNickname nicknames
    let use ← checkList use
    forEach checkPackage use
    let p ← newPackageAction packageName
    forEach (addNicknameAction p) nicknames
    forEach (usePackageAction p) use
    return p

/-! ## RENAME-PACKAGE -/

def checkName (p : ℕ) (d : Datum) : Action Unit := do
  let name ← string d
  match ← findPackage name with
  | some q => if q ≠ p then Comp.exit (.package (.packageExists name)) else return ()
  | none => return ()

def pushNicknameAction (p : ℕ) (nick : Datum) : Action Unit := do
  let nickname ← string nick
  perform fun s => (none, s.pushNickname p nickname)

def renamePackageAction (package newName newNicknames : Datum) : Action ℕ := do
  let p ← coerceToPackageAction package
  checkName p newName
  forEach (checkName p) newNicknames
  Comp.modify (·.removeNames p)
  let name ← string newName
  Comp.modify fun s =>
    (s.putName name p).setPackage p { s.packages p with name := some name, nicknames := [] }
  forEach (pushNicknameAction p) newNicknames
  return p

/-! ## %defpackage -/

/-- The arguments that are not ignored. -/
structure Declaration where
  name : Datum
  nicknames : Datum
  shadows : Datum
  shadowingImports : Datum
  use : Datum
  imports : Datum
  interns : Datum
  exports : Datum

def shadowAction (p : ℕ) (d : Datum) : Action Unit := do
  let name ← checkString d
  perform fun s => (none, s.shadow p name)

def forEachSymbol (body : Symbol → Action Unit) (entry : Datum) : Action Unit := do
  let q ← coerceToPackageAction (← car entry)
  let names ← cdr entry
  forEach (fun d => do
    let name ← checkString d
    let s ← Comp.get
    match s.findSymbol q name with
    | some symbol => body symbol
    | none => Comp.exit (.noSymbol name q)) names

def internAction (keyword p : ℕ) (d : Datum) : Action Unit := do
  let name ← checkString d
  perform fun s => (none, s.intern keyword p name false)

def exportAction (keyword p : ℕ) (d : Datum) : Action Unit := do
  let name ← checkString d
  perform fun s => (none, s.intern keyword p name false)
  let s ← Comp.get
  match s.findSymbol p name with
  | some symbol => perform (·.exportSymbol p symbol)
  | none => return ()

def checkLists : List Datum → Action Unit
  | [] => return ()
  | d :: rest => do
    let _ ← checkList d
    checkLists rest

/-- What is done to the package after it has been made. -/
def fillPackage (keyword p : ℕ) (d : Declaration) : Action Unit := do
  forEach (shadowAction p) d.shadows
  forEach (forEachSymbol fun symbol => perform fun s => (none, s.shadowingImport p symbol))
    d.shadowingImports
  forEach (usePackageAction p) d.use
  forEach (forEachSymbol fun symbol => perform (·.importSymbol p symbol)) d.imports
  forEach (internAction keyword p) d.interns
  forEach (exportAction keyword p) d.exports

def defpackageInternal (keyword : ℕ) (d : Declaration) : Action ℕ := do
  let packageName ← checkString d.name
  checkLists [d.nicknames, d.shadows, d.shadowingImports, d.use, d.imports, d.interns, d.exports]
  match ← findPackage packageName with
  | some p => return p
  | none =>
    forEach checkNickname d.nicknames
    let p ← newPackageAction packageName
    forEach (addNicknameAction p) d.nicknames
    fillPackage keyword p d
    return p

end Xcl.Packages
