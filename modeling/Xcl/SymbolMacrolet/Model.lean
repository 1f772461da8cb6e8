import Mathlib.Data.List.Basic
import Mathlib.Tactic

/-!
# Symbol macros in the precompiler

The precompiler walks a form and replaces symbol macros by their expansions. It keeps the
variables in scope in the list `*local-variables*`, with the expansions of symbol macros.

* `Form` and its parts: the forms;
* `Env`, `expansionOf`: the variables in scope.

An expansion is walked again where it is used, so that a symbol macro can expand for ever; both
walks have a bound on the depth of expansions.
-/

namespace Xcl.SymbolMacrolet

/-! ## Forms -/

mutual

/-- The forms, before and after the walk. -/
inductive Form
  | const
  | ref (name : String)
  /-- `SETQ` or `SETF`. -/
  | assign (place value : Form)
  | call (op : String) (args : Forms)
  | locally (body : Forms)
  | symbolMacrolet (defs : Bindings) (body : Forms)
  /-- `LET` and `LET*`. -/
  | letForm (star : Bool) (bindings : Bindings) (body : Forms)
  | lambda (params : Params) (aux : Bindings) (body : Forms)
  /-- `FLET` and `LABELS`. -/
  | functions (labels : Bool) (defs : Defs) (body : Forms)
  | multipleValueBind (names : List String) (values : Form) (body : Forms)
  | dolist (var list result : Form) (body : Forms)
  /-- `DO` and `DO*`. -/
  | doForm (star : Bool) (vars : DoVars) (test : Form) (results body : Forms)

inductive Forms
  | nil
  | cons (first : Form) (rest : Forms)

/-- Variables with initforms, or symbol macros with expansions. -/
inductive Bindings
  | nil
  | cons (name : String) (init : Form) (rest : Bindings)

/-- A lambda list, without its `&AUX` variables. -/
inductive Params
  | nil
  /-- A required, `&REST`, `&OPTIONAL` or `&KEY` parameter without an initform. -/
  | plain (name : String) (rest : Params)
  | init (name : String) (init : Form) (supplied : Option String) (rest : Params)

/-- The definitions of `FLET` and `LABELS`. The `&AUX` variables are part of the lambda list. -/
inductive Defs
  | nil
  | cons (name : String) (params : Params) (body : Forms) (rest : Defs)

/-- The variables of `DO`. -/
inductive DoVars
  | nil
  | plain (name : String) (init : Form) (rest : DoVars)
  | step (name : String) (init step : Form) (rest : DoVars)

end

def Forms.append : Forms → Forms → Forms
  | .nil, forms => forms
  | .cons first rest, forms => .cons first (rest.append forms)

def Params.names : Params → List String
  | .nil => []
  | .plain name rest => name :: rest.names
  | .init name _ supplied rest => name :: (supplied.toList ++ rest.names)

def Bindings.vars : Bindings → List String
  | .nil => []
  | .cons name _ rest => name :: rest.vars

def DoVars.vars : DoVars → List String
  | .nil => []
  | .plain name _ rest => name :: rest.vars
  | .step name _ _ rest => name :: rest.vars

/-! ## Variables in scope -/

/-- `*local-variables*`: an ordinary variable has no expansion. -/
abbrev Env := List (String × Option Form)

/-- The expansion of a name that `find-var` finds as a symbol macro. -/
def expansionOf (env : Env) (name : String) : Option Form :=
  (env.find? (·.1 == name)).bind Prod.snd

/-- Ordinary variables come into scope. -/
def bindVars (names : List String) (env : Env) : Env := names.map (·, none) ++ env

/-- The symbol macros of a `SYMBOL-MACROLET` come into scope. -/
def Bindings.bindExpansions : Bindings → Env → Env
  | .nil, env => env
  | .cons name expansion rest, env => rest.bindExpansions ((name, some expansion) :: env)

structure Next where
  form : Env → Form → Option Form
  place : Env → Form → Option Form

section Walk

-- `*compiling*`, and the variables that are globally special
variable (compiling : Bool) (special : String → Bool)

/-! ## The walk of the precompiler -/

mutual

/-- `precompile1` and its handlers. -/
def precompileForm (next : Next) : Env → Form → Option Form
  | _, .const => some .const
  | env, .ref name =>
    match expansionOf env name with
    | some expansion => next.form env expansion
    | none => some (.ref name)
  | env, .assign place value => do
    let p ← precompilePlace next env place
    let v ← precompileForm next env value
    return .assign p v
  | env, .call op args => do return .call op (← precompileForms next env args)
  | env, .locally body => do return .locally (← precompileForms next env body)
  | env, .symbolMacrolet defs body =>
    if defs.vars.any special then none
    else do return .locally (← precompileForms next (defs.bindExpansions env) body)
  | env, .letForm star bindings body => do
    let bs ← precompileVars next env bindings
    let b ← precompileForms next (bindVars bindings.vars.reverse env) body
    return .letForm star bs b
  | env, .lambda params aux body =>
    match aux with
    | .nil => do return .lambda params .nil (← precompileForms next env body)
    | aux => do
      -- `rewrite-aux-vars`
      let as ← precompileVars next env aux
      let b ← precompileForms next (bindVars aux.vars.reverse env) body
      return .lambda params .nil (.cons (.letForm true as b) .nil)
  | env, .functions labels defs body => do
    let ds ← precompileDefs next env defs
    let b ← precompileForms next env body
    return .functions labels ds b
  | env, .multipleValueBind names values body => do
    let v ← precompileForm next env values
    let b ← precompileForms next env body
    return .multipleValueBind names v b
  | env, .dolist var list result body => do
    -- the variable is walked like a form
    let x ← precompileForm next env var
    let l ← precompileForm next env list
    let r ← precompileForm next env result
    let b ← precompileForms next env body
    return .dolist x l r b
  | env, .doForm star vars test results body =>
    if compiling then do
      -- the expansion is a `LET` or `LET*`
      let is ← precompileInits next env vars
      let env' := bindVars vars.vars.reverse env
      let b ← precompileForms next env' body
      let ss ← precompileSteps next env' vars
      let t ← precompileForm next env' test
      let rs ← precompileForms next env' results
      return .letForm star is (b.append (ss.append (.cons t rs)))
    else do
      let vs ← precompileDoVars next env vars
      let t ← precompileForm next env test
      let rs ← precompileForms next env results
      let b ← precompileForms next env body
      return .doForm star vs t rs b

/-- The place of an assignment. -/
def precompilePlace (next : Next) : Env → Form → Option Form
  | env, .ref name =>
    match expansionOf env name with
    | some expansion => next.place env expansion
    | none => some (.ref name)
  | env, .call op args => do return .call op (← precompileForms next env args)
  | _, _ => none

def precompileForms (next : Next) : Env → Forms → Option Forms
  | _, .nil => some .nil
  | env, .cons first rest => do
    let f ← precompileForm next env first
    let r ← precompileForms next env rest
    return .cons f r

/-- `precompile-let/let*-vars`, for `LET` as for `LET*`. -/
def precompileVars (next : Next) : Env → Bindings → Option Bindings
  | _, .nil => some .nil
  | env, .cons name init rest => do
    let i ← precompileForm next env init
    let r ← precompileVars next ((name, none) :: env) rest
    return .cons name i r

/-- `precompile-local-functions`. The results for the initforms of a lambda list are lost. -/
def precompileDefs (next : Next) : Env → Defs → Option Defs
  | _, .nil => some .nil
  | env, .cons name params body rest => do
    precompileParams next env params
    let b ← precompileForms next env body
    let r ← precompileDefs next env rest
    return .cons name params b r

def precompileParams (next : Next) : Env → Params → Option Unit
  | _, .nil => some ()
  | env, .plain _ rest => precompileParams next env rest
  | env, .init _ init _ rest => do
    let _ ← precompileForm next env init
    precompileParams next env rest

/-- `precompile-do/do*-vars`. -/
def precompileDoVars (next : Next) : Env → DoVars → Option DoVars
  | _, .nil => some .nil
  | env, .plain name init rest => do
    let i ← precompileForm next env init
    let r ← precompileDoVars next env rest
    return .plain name i r
  | env, .step name init step rest => do
    let i ← precompileForm next env init
    let s ← precompileForm next env step
    let r ← precompileDoVars next env rest
    return .step name i s r

/-- The bindings of the expansion of `DO`. -/
def precompileInits (next : Next) : Env → DoVars → Option Bindings
  | _, .nil => some .nil
  | env, .plain name init rest => do
    let i ← precompileForm next env init
    let r ← precompileInits next ((name, none) :: env) rest
    return .cons name i r
  | env, .step name init _ rest => do
    let i ← precompileForm next env init
    let r ← precompileInits next ((name, none) :: env) rest
    return .cons name i r

/-- The assignments of the expansion of `DO`. -/
def precompileSteps (next : Next) : Env → DoVars → Option Forms
  | _, .nil => some .nil
  | env, .plain _ _ rest => precompileSteps next env rest
  | env, .step name _ step rest => do
    let s ← precompileForm next env step
    let r ← precompileSteps next env rest
    return .cons (.assign (.ref name) s) r

end

/-- The walks with a bound on the depth of expansions. -/
def precompileNext : ℕ → Next
  | 0 => ⟨fun _ _ => none, fun _ _ => none⟩
  | n + 1 => ⟨precompileForm compiling special (precompileNext n),
      precompilePlace compiling special (precompileNext n)⟩

def precompile1 (n : ℕ) : Env → Form → Option Form := (precompileNext compiling special n).form

/-! ## The walk by the scoping rules -/

mutual

/-- A form is expanded by the scoping rules. -/
def expandForm (next : Next) : Env → Form → Option Form
  | _, .const => some .const
  | env, .ref name =>
    match expansionOf env name with
    | some expansion => next.form env expansion
    | none => some (.ref name)
  | env, .assign place value => do
    let p ← expandPlace next env place
    let v ← expandForm next env value
    return .assign p v
  | env, .call op args => do return .call op (← expandForms next env args)
  | env, .locally body => do return .locally (← expandForms next env body)
  | env, .symbolMacrolet defs body =>
    if defs.vars.any special then none
    else do return .locally (← expandForms next (defs.bindExpansions env) body)
  | env, .letForm star bindings body => do
    let bs ← expandVars next star env bindings
    let b ← expandForms next (bindVars bindings.vars.reverse env) body
    return .letForm star bs b
  | env, .lambda params aux body => do
    let ps ← expandParams next env params
    let env' := bindVars params.names env
    match aux with
    | .nil => return .lambda ps .nil (← expandForms next env' body)
    | aux =>
      let as ← expandVars next true env' aux
      let b ← expandForms next (bindVars aux.vars.reverse env') body
      return .lambda ps .nil (.cons (.letForm true as b) .nil)
  | env, .functions labels defs body => do
    let ds ← expandDefs next env defs
    let b ← expandForms next env body
    return .functions labels ds b
  | env, .multipleValueBind names values body => do
    let v ← expandForm next env values
    let b ← expandForms next (bindVars names env) body
    return .multipleValueBind names v b
  | env, .dolist var list result body =>
    match var with
    | .ref name => do
      let l ← expandForm next env list
      let r ← expandForm next ((name, none) :: env) result
      let b ← expandForms next ((name, none) :: env) body
      return .dolist (.ref name) l r b
    | _ => none
  | env, .doForm star vars test results body =>
    if compiling then do
      let is ← expandInits next star env vars
      let env' := bindVars vars.vars.reverse env
      let b ← expandForms next env' body
      let ss ← expandSteps next env' vars
      let t ← expandForm next env' test
      let rs ← expandForms next env' results
      return .letForm star is (b.append (ss.append (.cons t rs)))
    else do
      let vs ← expandDoVars next star (bindVars vars.vars.reverse env) env vars
      let env' := bindVars vars.vars.reverse env
      let t ← expandForm next env' test
      let rs ← expandForms next env' results
      let b ← expandForms next env' body
      return .doForm star vs t rs b

def expandPlace (next : Next) : Env → Form → Option Form
  | env, .ref name =>
    match expansionOf env name with
    | some expansion => next.place env expansion
    | none => some (.ref name)
  | env, .call op args => do return .call op (← expandForms next env args)
  | _, _ => none

def expandForms (next : Next) : Env → Forms → Option Forms
  | _, .nil => some .nil
  | env, .cons first rest => do
    let f ← expandForm next env first
    let r ← expandForms next env rest
    return .cons f r

/-- The initforms of `LET*` see the earlier variables, those of `LET` do not. -/
def expandVars (next : Next) (star : Bool) : Env → Bindings → Option Bindings
  | _, .nil => some .nil
  | env, .cons name init rest => do
    let i ← expandForm next env init
    let r ← expandVars next star (if star then (name, none) :: env else env) rest
    return .cons name i r

/-- The initforms of a lambda list see the earlier parameters. -/
def expandParams (next : Next) : Env → Params → Option Params
  | _, .nil => some .nil
  | env, .plain name rest => do return .plain name (← expandParams next ((name, none) :: env) rest)
  | env, .init name init supplied rest => do
    let i ← expandForm next env init
    let r ← expandParams next (bindVars (name :: supplied.toList) env) rest
    return .init name i supplied r

def expandDefs (next : Next) : Env → Defs → Option Defs
  | _, .nil => some .nil
  | env, .cons name params body rest => do
    let ps ← expandParams next env params
    let b ← expandForms next (bindVars params.names env) body
    let r ← expandDefs next env rest
    return .cons name ps b r

/-- The stepforms of `DO` see its variables, in the environment `inner`. -/
def expandDoVars (next : Next) (star : Bool) (inner : Env) : Env → DoVars → Option DoVars
  | _, .nil => some .nil
  | env, .plain name init rest => do
    let i ← expandForm next env init
    let r ← expandDoVars next star inner (if star then (name, none) :: env else env) rest
    return .plain name i r
  | env, .step name init step rest => do
    let i ← expandForm next env init
    let s ← expandForm next inner step
    let r ← expandDoVars next star inner (if star then (name, none) :: env else env) rest
    return .step name i s r

def expandInits (next : Next) (star : Bool) : Env → DoVars → Option Bindings
  | _, .nil => some .nil
  | env, .plain name init rest => do
    let i ← expandForm next env init
    let r ← expandInits next star (if star then (name, none) :: env else env) rest
    return .cons name i r
  | env, .step name init _ rest => do
    let i ← expandForm next env init
    let r ← expandInits next star (if star then (name, none) :: env else env) rest
    return .cons name i r

def expandSteps (next : Next) : Env → DoVars → Option Forms
  | _, .nil => some .nil
  | env, .plain _ _ rest => expandSteps next env rest
  | env, .step name _ step rest => do
    let s ← expandForm next env step
    let r ← expandSteps next env rest
    return .cons (.assign (.ref name) s) r

end

def expandNext : ℕ → Next
  | 0 => ⟨fun _ _ => none, fun _ _ => none⟩
  | n + 1 => ⟨expandForm compiling special (expandNext n),
      expandPlace compiling special (expandNext n)⟩

/-- A form with the symbol macros replaced that the scoping rules designate. -/
def expand (n : ℕ) : Env → Form → Option Form := (expandNext compiling special n).form

end Walk

end Xcl.SymbolMacrolet
