import Mathlib.Data.List.Basic

/-!
# Blocks in the precompiler

* `Form`: what the precompiler walks, with the forms that it copies without a look at them;
* `precompile1`: the walk with `*compiling*` nil, over the alist `*blocks*`.
-/

namespace Xcl.Blocks

/-! ## Forms -/

/-- The name of a function or of a block; only functions have names `(SETF symbol)`. -/
inductive Name
  | symbol (s : String)
  | setf (s : String)
  deriving DecidableEq

def Name.nil : Name := .symbol "NIL"

/-- `fdefinition_block_name` -/
def Name.blockName : Name → Name
  | .symbol s => .symbol s
  | .setf s => .symbol s

/-- Every form that establishes a block has a site, which tells it from the other forms of the
source. Macro calls are the forms that they expand to, `RETURN` is `RETURN-FROM NIL`. -/
inductive Form
  /-- A form that the precompiler returns as it is: symbols, constants, `QUOTE`, `GO`, `DECLARE`,
  `LOAD-TIME-VALUE`, `FUNCTION` of a name. -/
  | atom (text : String)
  /-- A function call or any other form whose parts are walked in order. -/
  | call (op : String) (args : List Form)
  | car (args : List Form)
  | block (site : ℕ) (name : Name) (body : List Form)
  | returnFrom (name : Name) (value : Form)
  /-- The initforms of `&OPTIONAL` and `&KEY` parameters, those of `&AUX` variables, the body. -/
  | lambda (inits aux body : List Form)
  /-- `DO` and `DO*`: the initforms, then the step forms, end test, result forms and body. -/
  | doLoop (site : ℕ) (inits rest : List Form)
  /-- `DOLIST` and `DOTIMES`: the forms in the first argument, then the body. -/
  | dolist (site : ℕ) (spec body : List Form)
  /-- A definition in a `FLET` or `LABELS` form, where it stands before the forms of the body. -/
  | localFunction (site : ℕ) (name : Name) (inits body : List Form)

/-! ## The walk -/

/-- An entry of `*blocks*`: `(name . t)` once a `RETURN-FROM` has been seen. -/
structure Entry where
  name : Name
  used : Bool

/-- The precompiler marks entries of `*blocks*` and signals errors. -/
abbrev Walk (α : Type) := StateT (List Entry) (Except String) α

/-- `(rplacd (assq name *blocks*) t)` -/
def mark (name : Name) : List Entry → Option (List Entry)
  | [] => none
  | entry :: blocks =>
    if entry.name = name then some ({ entry with used := true } :: blocks)
    else (mark name blocks).map (entry :: ·)

/-- `*blocks*` is bound to a list with one more entry; the mark that this entry gets is returned. -/
def withEntry {α : Type} (name : Name) (walk : Walk α) : Walk (α × Bool) := fun blocks => do
  let (a, blocks) ← walk (⟨name, false⟩ :: blocks)
  return ((a, blocks.head?.any Entry.used), blocks.tail)

/-- What `precompile-block` leaves of a block that is not used. -/
def progn : List Form → Form
  | [] => .atom "NIL"
  | [form] => form
  | body => .call "PROGN" body

def precompileBlock (site : ℕ) (name : Name) (body : Walk (List Form)) : Walk Form := do
  let (body, used) ← withEntry name body
  return if used then .block site name body else progn body

def precompileReturnFrom (name : Name) (value : Walk Form) : Walk Form := do
  let blocks ← get
  match mark name blocks with
  | none =>
    throw (match name with
      | .symbol s => s!"No block named {s} is currently visible."
      | .setf s => s!"No block named (SETF {s}) is currently visible.")
  | some blocks =>
    set blocks
    return .returnFrom name (← value)

/-- `(CAR (CDR x))` is `(CADR x)`. -/
def precompileCar : Form → Form
  | .call "CDR" [form] => .call "CADR" [form]
  | arg => .car [arg]

/-- The body that `rewrite-aux-vars` leaves: a `LET*` form with the `&AUX` variables. -/
def rewriteAuxVars : List Form → List Form → List Form
  | [], body => body
  | aux, body => [.call "LET*" (aux ++ body)]

/-- The rest of the lambda list is copied. -/
def precompileLambda (inits : List Form) (aux body : Walk (List Form)) : Walk Form := do
  let aux ← aux
  let body ← body
  return .lambda inits [] (rewriteAuxVars aux body)

/-- The initforms are walked, and the result is thrown away. -/
def precompileLocalFunctionDef (site : ℕ) (name : Name) (inits : List Form)
    (walkedInits body : Walk (List Form)) : Walk Form := do
  let _ ← walkedInits
  let (body, _) ← withEntry name body
  return .localFunction site name inits body

mutual

def precompile1 : Form → Walk Form
  | .atom text => return .atom text
  | .call op args => return .call op (← precompileAll args)
  | .car [arg] => return precompileCar (← precompile1 arg)
  -- wrong number of arguments
  | .car args => return .car args
  | .block site name body => precompileBlock site name (precompileAll body)
  | .returnFrom name value => precompileReturnFrom name (precompile1 value)
  | .lambda inits aux body => precompileLambda inits (precompileAll aux) (precompileAll body)
  | .doLoop site inits rest => do
    let ((inits, rest), _) ← withEntry .nil do
      let inits ← precompileAll inits
      return (inits, ← precompileAll rest)
    return .doLoop site inits rest
  | .dolist site spec body => do
    let spec ← precompileAll spec
    let (body, _) ← withEntry .nil (precompileAll body)
    return .dolist site spec body
  | .localFunction site name inits body =>
    precompileLocalFunctionDef site name inits (precompileAll inits) (precompileAll body)

/-- `(mapcar #'precompile1 forms)` -/
def precompileAll : List Form → Walk (List Form)
  | [] => return []
  | form :: forms => do
    let form ← precompile1 form
    return form :: (← precompileAll forms)

end

/-- `precompile-form` binds `*blocks*` to nil. -/
def precompileForm (form : Form) : Except String Form := do
  let (form, _) ← precompile1 form []
  return form

/-! ## Lexical reference -/

/-- The part of a `DO` form that its block `NIL` surrounds: the language has it around the entire
form, the interpreter evaluates the initforms before it adds the block. -/
inductive DoScope
  | entire
  | afterInits
  deriving DecidableEq

/-- The sites of the visible blocks. -/
abbrev Env := Name → Option ℕ

def Env.bind (env : Env) (name : Name) (site : ℕ) : Env := fun n =>
  if n = name then some site else env n

/-- The environment of the initforms of a `DO` form. -/
def DoScope.env (scope : DoScope) (env : Env) (site : ℕ) : Env :=
  match scope with
  | .entire => env.bind .nil site
  | .afterInits => env

mutual

/-- The sites of the blocks that the `RETURN-FROM`s of a form return from, in order; `none` is a
missing block. -/
def exits (scope : DoScope) : Env → Form → List (Option ℕ)
  | _, .atom _ => []
  | env, .call _ args => exitsAll scope env args
  | env, .car args => exitsAll scope env args
  | env, .block site name body => exitsAll scope (env.bind name site) body
  | env, .returnFrom name value => env name :: exits scope env value
  | env, .lambda inits aux body =>
    exitsAll scope env inits ++ (exitsAll scope env aux ++ exitsAll scope env body)
  | env, .doLoop site inits rest =>
    exitsAll scope (scope.env env site) inits ++ exitsAll scope (env.bind .nil site) rest
  | env, .dolist site spec body =>
    exitsAll scope (env.bind .nil site) spec ++ exitsAll scope (env.bind .nil site) body
  | env, .localFunction site name inits body =>
    exitsAll scope env inits ++ exitsAll scope (env.bind name.blockName site) body

def exitsAll (scope : DoScope) : Env → List Form → List (Option ℕ)
  | _, [] => []
  | env, form :: forms => exits scope env form ++ exitsAll scope env forms

end

mutual

def sites : Form → List ℕ
  | .atom _ => []
  | .call _ args => sitesAll args
  | .car args => sitesAll args
  | .block site _ body => site :: sitesAll body
  | .returnFrom _ value => sites value
  | .lambda inits aux body => sitesAll inits ++ (sitesAll aux ++ sitesAll body)
  | .doLoop site inits rest => site :: (sitesAll inits ++ sitesAll rest)
  | .dolist site spec body => site :: (sitesAll spec ++ sitesAll body)
  | .localFunction site _ inits body => site :: (sitesAll inits ++ sitesAll body)

def sitesAll : List Form → List ℕ
  | [] => []
  | form :: forms => sites form ++ sitesAll forms

end

structure Source where
  form : Form
  nodup : (sites form).Nodup

/-- Every block that a `RETURN-FROM` of the form refers to is still there, and every `RETURN-FROM`
returns from the block it returned from. -/
def KeepsBlocks (scope : DoScope) (form form' : Form) : Prop :=
  (∀ site, some site ∈ exits scope (fun _ => none) form → site ∈ sites form') ∧
    exits scope (fun _ => none) form' = exits scope (fun _ => none) form

/-! ## Blocks that the walk does not see used -/

/-- A `RETURN-FROM` in a form, as it looks from outside of the form: `lexical` when it refers to a
block around the form, `walked` when the walk takes it for a reference to such a block. -/
structure Exit where
  name : Name
  lexical : Bool
  walked : Bool
  deriving DecidableEq

/-- What remains of a `RETURN-FROM` when a block and an entry of `*blocks*` are put around it. -/
def Exit.under (block entry : Option Name) (exit : Exit) : Exit where
  name := exit.name
  lexical := exit.lexical && !(block == some exit.name)
  walked := exit.walked && !(entry == some exit.name)

def Exit.unwalked (exit : Exit) : Exit := { exit with walked := false }

/-- The block around the initforms of a `DO` form. -/
def DoScope.block : DoScope → Option Name
  | .entire => some .nil
  | .afterInits => none

mutual

def loose (scope : DoScope) : Form → List Exit
  | .atom _ => []
  | .call _ args => looseAll scope args
  | .car [arg] => loose scope arg
  | .car args => (looseAll scope args).map Exit.unwalked
  | .block _ name body => (looseAll scope body).map (Exit.under (some name) (some name))
  | .returnFrom name value => ⟨name, true, true⟩ :: loose scope value
  | .lambda inits aux body =>
    (looseAll scope inits).map Exit.unwalked ++ (looseAll scope aux ++ looseAll scope body)
  | .doLoop _ inits rest =>
    (looseAll scope inits).map (Exit.under scope.block (some .nil)) ++
      (looseAll scope rest).map (Exit.under (some .nil) (some .nil))
  | .dolist _ spec body =>
    (looseAll scope spec).map (Exit.under (some .nil) none) ++
      (looseAll scope body).map (Exit.under (some .nil) (some .nil))
  | .localFunction _ name inits body =>
    looseAll scope inits ++ (looseAll scope body).map (Exit.under (some name.blockName) (some name))

def looseAll (scope : DoScope) : List Form → List Exit
  | [] => []
  | form :: forms => loose scope form ++ looseAll scope forms

end

/-- A form with these `RETURN-FROM`s refers to the block `name` around it. -/
def refers (name : Name) (exits : List Exit) : Bool :=
  exits.any fun exit => exit.name == name && exit.lexical

/-- The walk marks the entry of `name`. -/
def marks (name : Name) (exits : List Exit) : Bool :=
  exits.any fun exit => exit.name == name && exit.walked

mutual

/-- The sites of the walked `BLOCK` forms that are only referred to where the walk does not look. -/
def stranded (scope : DoScope) : Form → List ℕ
  | .atom _ => []
  | .call _ args => strandedAll scope args
  | .car [arg] => stranded scope arg
  | .car _ => []
  | .block site name body =>
    (if refers name (looseAll scope body) && !marks name (looseAll scope body) then [site]
      else []) ++ strandedAll scope body
  | .returnFrom _ value => stranded scope value
  | .lambda _ aux body => strandedAll scope aux ++ strandedAll scope body
  | .doLoop _ inits rest => strandedAll scope inits ++ strandedAll scope rest
  | .dolist _ spec body => strandedAll scope spec ++ strandedAll scope body
  | .localFunction _ _ _ body => strandedAll scope body

def strandedAll (scope : DoScope) : List Form → List ℕ
  | [] => []
  | form :: forms => stranded scope form ++ strandedAll scope forms

end

end Xcl.Blocks
