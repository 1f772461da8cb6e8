import Mathlib.Data.Set.Basic
import Mathlib.Tactic

/-!
# Local functions, macros and inlining in the precompiler

The precompiler expands macro calls and calls of inline functions. It looks up macros in
`*compile-file-environment*`, to which it adds the local functions and macros, and inline
expansions by name.

* `Form`: calls, `FLET`, `LABELS`, `MACROLET` and `LET`;
* `precompile1`: the walk of the precompiler.

Macros are functions on forms. A definition of a local function or macro has a number.
-/

namespace Xcl.LocalFunction

/-! ## Forms -/

mutual

inductive Form
  | const
  | call (name : String) (args : Forms)
  | letForm (inits body : Forms)
  /-- `FLET` and `LABELS`. -/
  | functions (labels : Bool) (defs : Defs) (body : Forms)
  | macrolet (defs : List (String × ℕ)) (body : Forms)

inductive Forms
  | nil
  | cons (first : Form) (rest : Forms)

inductive Defs
  | nil
  | cons (name : String) (id : ℕ) (body : Forms) (rest : Defs)

end

/-- What a name means that is defined locally. -/
inductive Binding
  | function (id : ℕ)
  | expander (id : ℕ)
  deriving DecidableEq

/-- The local functions and macros in scope. -/
abbrev Env := List (String × Binding)

def Env.find (env : Env) (name : String) : Option Binding :=
  (List.find? (fun b => b.1 == name) env).map Prod.snd

/-- The definitions come into scope one after the other. -/
def Defs.bind : Defs → Env → Env
  | .nil, env => env
  | .cons name id _ rest, env => rest.bind ((name, .function id) :: env)

def bindExpanders (defs : List (String × ℕ)) (env : Env) : Env :=
  defs.foldl (fun env d => (d.1, .expander d.2) :: env) env

def Defs.names : Defs → List String
  | .nil => []
  | .cons name _ _ rest => name :: rest.names

def Forms.length : Forms → ℕ
  | .nil => 0
  | .cons _ rest => rest.length + 1

structure World where
  expander : ℕ → Forms → Form
  globalExpander : String → Option ℕ
  /-- `inline-expansion`, of functions that are not declared `NOTINLINE`. -/
  inlineExpansion : String → Option (ℕ × Forms)

variable (w : World)

/-- `macro-function` in an environment. -/
def macroFunction (env : Env) (name : String) : Option ℕ :=
  match env.find name with
  | some (.expander id) => some id
  | some (.function _) => none
  | none => w.globalExpander name

/-- The body that `expand-inline` takes for a call. -/
def expandInline (name : String) (args : Forms) : Option Forms :=
  match w.inlineExpansion name with
  | some (arity, body) => if arity = args.length then some body else none
  | none => none

/-! ## The walk of the precompiler -/

/-- The walk of what a macro call or an inline call expands to. -/
structure Next where
  form : Env → Form → Option Form
  body : Env → Forms → Option Forms

mutual

/-- `precompile1` and its handlers, with inlining. -/
def precompileForm (next : Next) : Env → Form → Option Form
  | _, .const => some .const
  | env, .call name args =>
    match macroFunction w env name with
    | some id => next.form env (w.expander id args)
    | none =>
      -- `precompile-function-call`
      match expandInline w name args with
      | some body => do
        let as ← precompileForms next env args
        let b ← next.body env body
        return .letForm as b
      | none => do return .call name (← precompileForms next env args)
  | env, .letForm inits body => do
    let is ← precompileForms next env inits
    let b ← precompileForms next env body
    return .letForm is b
  | env, .functions labels defs body => do
    let ds ← precompileDefs next env defs
    let b ← precompileForms next (defs.bind env) body
    return .functions labels ds b
  | env, .macrolet defs body => do
    let b ← precompileForms next (bindExpanders defs env) body
    -- `precompile-progn` walks the body again
    let b ← next.body (bindExpanders defs env) b
    return .letForm .nil b

def precompileForms (next : Next) : Env → Forms → Option Forms
  | _, .nil => some .nil
  | env, .cons first rest => do
    let f ← precompileForm next env first
    let r ← precompileForms next env rest
    return .cons f r

/-- `precompile-local-functions`, for `FLET` as for `LABELS`. -/
def precompileDefs (next : Next) : Env → Defs → Option Defs
  | _, .nil => some .nil
  | env, .cons name id body rest => do
    let b ← precompileForms next env body
    let r ← precompileDefs next ((name, .function id) :: env) rest
    return .cons name id b r

end

def precompileNext : ℕ → Next
  | 0 => ⟨fun _ _ => none, fun _ _ => none⟩
  | n + 1 => ⟨precompileForm w (precompileNext n), precompileForms w (precompileNext n)⟩

/-- `precompile1`, with a bound on the depth of expansions. -/
def precompile1 (n : ℕ) : Env → Form → Option Form := precompileForm w (precompileNext w n)

/-! ## The meaning of forms -/

inductive Target
  | global (name : String)
  | localFunction (id : ℕ)
  deriving DecidableEq

mutual

/-- Forms in which the scoping rules have been applied. -/
inductive Resolved
  | const
  | call (target : Target) (args : ResolvedForms)
  | letForm (inits body : ResolvedForms)
  | functions (labels : Bool) (defs : ResolvedDefs) (body : ResolvedForms)

inductive ResolvedForms
  | nil
  | cons (first : Resolved) (rest : ResolvedForms)

inductive ResolvedDefs
  | nil
  | cons (id : ℕ) (body : ResolvedForms) (rest : ResolvedDefs)

end

/-- The function that a name designates which is not a macro. -/
def target (env : Env) (name : String) : Target :=
  match env.find name with
  | some (.function id) => .localFunction id
  | _ => .global name

mutual

/-- A local function hides macros of its name; `FLET` definitions do not see each other, `LABELS`
definitions do. -/
def meaningForm (next : Env → Form → Option Resolved) : Env → Form → Option Resolved
  | _, .const => some .const
  | env, .call name args =>
    match macroFunction w env name with
    | some id => next env (w.expander id args)
    | none => do return .call (target env name) (← meaningForms next env args)
  | env, .letForm inits body => do
    let is ← meaningForms next env inits
    let b ← meaningForms next env body
    return .letForm is b
  | env, .functions labels defs body => do
    let ds ← meaningDefs next (if labels then defs.bind env else env) defs
    let b ← meaningForms next (defs.bind env) body
    return .functions labels ds b
  | env, .macrolet defs body => do
    return .letForm .nil (← meaningForms next (bindExpanders defs env) body)

def meaningForms (next : Env → Form → Option Resolved) : Env → Forms → Option ResolvedForms
  | _, .nil => some .nil
  | env, .cons first rest => do
    let f ← meaningForm next env first
    let r ← meaningForms next env rest
    return .cons f r

def meaningDefs (next : Env → Form → Option Resolved) : Env → Defs → Option ResolvedDefs
  | _, .nil => some .nil
  | env, .cons _ id body rest => do
    let b ← meaningForms next env body
    let r ← meaningDefs next env rest
    return .cons id b r

end

def meaningNext : ℕ → Env → Form → Option Resolved
  | 0 => fun _ _ => none
  | n + 1 => meaningForm w (meaningNext n)

/-- The meaning of a form, with a bound on the depth of macro expansions. -/
def meaning (n : ℕ) : Env → Form → Option Resolved := meaningForm w (meaningNext w n)

/-- The meaning of a body of a function that was defined globally. -/
def meaningBody (n : ℕ) : Forms → Option ResolvedForms := meaningForms w (meaningNext w n) []

mutual

inductive Unfolds : Resolved → Resolved → Prop
  | const : Unfolds .const .const
  | call (t : Target) {args args' : ResolvedForms} : UnfoldsForms args args' →
    Unfolds (.call t args) (.call t args')
  | inline {name : String} {arity n : ℕ} {code : Forms} {args args' body body' : ResolvedForms} :
    w.inlineExpansion name = some (arity, code) → meaningBody w n code = some body →
    UnfoldsForms args args' → UnfoldsForms body body' →
    Unfolds (.call (.global name) args) (.letForm args' body')
  | letForm {inits inits' body body' : ResolvedForms} : UnfoldsForms inits inits' →
    UnfoldsForms body body' → Unfolds (.letForm inits body) (.letForm inits' body')
  | functions (labels : Bool) {defs defs' : ResolvedDefs} {body body' : ResolvedForms} :
    UnfoldsDefs defs defs' → UnfoldsForms body body' →
    Unfolds (.functions labels defs body) (.functions labels defs' body')

inductive UnfoldsForms : ResolvedForms → ResolvedForms → Prop
  | nil : UnfoldsForms .nil .nil
  | cons {first first' : Resolved} {rest rest' : ResolvedForms} : Unfolds first first' →
    UnfoldsForms rest rest' → UnfoldsForms (.cons first rest) (.cons first' rest')

inductive UnfoldsDefs : ResolvedDefs → ResolvedDefs → Prop
  | nil : UnfoldsDefs .nil .nil
  | cons (id : ℕ) {body body' : ResolvedForms} {rest rest' : ResolvedDefs} :
    UnfoldsForms body body' → UnfoldsDefs rest rest' →
    UnfoldsDefs (.cons id body rest) (.cons id body' rest')

end

end Xcl.LocalFunction
