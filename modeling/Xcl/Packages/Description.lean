import Xcl.Packages.Definition

/-!
# What a package definition describes

* `Source`, `Contents`: the symbols of a package that is being defined;
* `Namespaces`: the registry, with the package and its names.
-/

namespace Xcl.Packages

/-- A symbol of the new package: one made for it, or one that the registry has already. -/
inductive Source
  | fresh
  | symbol (symbol : Symbol)
  deriving DecidableEq

/-- The symbols in the tables of the new package, and the packages it uses. -/
structure Contents where
  own : String → Option Source
  uses : List ℕ

def Contents.empty : Contents where
  own := fun _ => none
  uses := []

def Contents.add (c : Contents) (name : String) (source : Source) : Contents :=
  { c with own := Function.update c.own name (some source) }

/-! ## Arguments -/

def Datum.car? : Datum → Option Datum
  | .nil => some .nil
  | .cons a _ => some a
  | _ => none

def Datum.cdr? : Datum → Option Datum
  | .nil => some .nil
  | .cons _ d => some d
  | _ => none

def Datum.listp : Datum → Prop
  | .nil | .cons _ _ => True
  | _ => False

instance : DecidablePred Datum.listp
  | .nil | .cons _ _ => isTrue trivial
  | .string _ | .symbol _ | .character _ | .package _ | .other => isFalse id

/-- The names that a proper list of string designators stands for. -/
def Datum.strings? : Datum → Option (List String)
  | .nil => some []
  | .cons a d => do
    let name ← a.string?
    let names ← d.strings?
    return name :: names
  | _ => none

def describeEach (f : Datum → Contents → Option Contents) : Datum → Contents → Option Contents
  | .nil, c => some c
  | .cons a d, c => (f a c).bind (describeEach f d)
  | _, _ => none

/-! ## Descriptions -/

/-- The registry before the definition, and the names of the new package. -/
structure Namespaces where
  state : State
  names : List String

namespace Namespaces

variable (r : Namespaces)

/-- The package that is made. -/
def self : ℕ := r.state.packageCount

def denotes : Datum → Option ℕ
  | .package q => some q
  | d => d.string?.bind fun name => if name ∈ r.names then some r.self else r.state.packageMap name

/-- The new package inherits no symbol from itself that it does not have. -/
def inherited (name : String) : List ℕ → Option Source
  | [] => none
  | q :: rest =>
    if q = r.self then inherited name rest
    else ((r.state.packages q).externalSymbols name).map .symbol <|> inherited name rest

def accessible (c : Contents) (name : String) : Option Source :=
  c.own name <|> r.inherited name c.uses

def find (c : Contents) (q : ℕ) (name : String) : Option Source :=
  if q = r.self then r.accessible c name else (r.state.findSymbol q name).map .symbol

def shadow (d : Datum) (c : Contents) : Option Contents :=
  d.stringp?.map fun name => if (c.own name).isSome then c else c.add name .fresh

def shadowingImport (name : String) (source : Source) (c : Contents) : Option Contents :=
  some (c.add name source)

def importSymbol (name : String) (source : Source) (c : Contents) : Option Contents :=
  match r.accessible c name with
  | none => some (c.add name source)
  | some source' => if source' = source then some (c.add name source) else none

def symbols (f : String → Source → Contents → Option Contents) (entry : Datum) (c : Contents) :
    Option Contents := do
  let package ← entry.car?
  let q ← r.denotes package
  let names ← entry.cdr?
  describeEach (fun d c => do
    let name ← d.stringp?
    let source ← r.find c q name
    f name source c) names c

def use (d : Datum) (c : Contents) : Option Contents :=
  (r.denotes d).map fun q => if q ∈ c.uses then c else { c with uses := q :: c.uses }

def intern (d : Datum) (c : Contents) : Option Contents :=
  d.stringp?.map fun name => if (r.accessible c name).isSome then c else c.add name .fresh

/-- What is inherited becomes the package's own. -/
def exportSymbol (d : Datum) (c : Contents) : Option Contents :=
  d.stringp?.map fun name => c.add name ((r.accessible c name).getD .fresh)

/-- The package that a definition describes. There is none if an argument is not of the form that
is asked for, a package does not exist, a symbol to import is not accessible where it is to come
from, or another symbol with its name is accessible in the new package. -/
def describe (d : Declaration) : Option Contents := do
  let c ← describeEach shadow d.shadows .empty
  let c ← describeEach (r.symbols shadowingImport) d.shadowingImports c
  let c ← describeEach r.use d.use c
  let c ← describeEach (r.symbols r.importSymbol) d.imports c
  let c ← describeEach r.intern d.interns c
  describeEach r.exportSymbol d.exports c

end Namespaces

namespace Declaration

variable (s : State) (d : Declaration)

/-- The names of the package, if they are names. -/
def names? : Option (List String) := do
  let name ← d.name.stringp?
  let nicknames ← d.nicknames.strings?
  return name :: nicknames

def lists : List Datum :=
  [d.nicknames, d.shadows, d.shadowingImports, d.use, d.imports, d.interns, d.exports]

def Defines : Prop :=
  ∃ names, d.names? = some names ∧ (∀ list ∈ d.lists, list.listp) ∧
    ∀ name ∈ names, s.packageMap name = none

/-- The arguments describe a package. -/
def Consistent : Prop :=
  ∀ names, d.names? = some names → ((⟨s, names⟩ : Namespaces).describe d).isSome

end Declaration

end Xcl.Packages
