import Xcl.Lib.Binding

/-!
# Lambda lists in the precompiler

* `LambdaList`, `Lambda`, `Expression`: lambda expressions before and after;
* `rewriteAuxVars`, `maybeRewriteLambda`: the functions of the precompiler.
-/

namespace Xcl.RewriteLambda

open Binding

/-! ## Lambda expressions -/

/-- A symbol of the program or one that the precompiler makes. -/
inductive Name (Symbol : Type)
  | source (s : Symbol)
  | gensym (n : ℕ)
  deriving DecidableEq

/-- What a call names a keyword parameter with. -/
inductive Key (Symbol : Type)
  | keyword (name : Name Symbol)
  | symbol (s : Symbol)
  deriving DecidableEq

structure Initform (Symbol Form : Type) where
  form : Form
  suppliedP : Option Symbol

/-- `x` and `(x)` have no initform, `(x form)` and `(x form supplied-p)` do. -/
structure OptionalParameter (Symbol Form Var : Type) where
  var : Var
  init : Option (Initform Symbol Form)

inductive KeyParameter (Symbol Form Var : Type)
  | atom (x : Var)
  /-- `(x …)` -/
  | spec (x : Var) (init : Option (Initform Symbol Form))
  /-- `((key x) …)` -/
  | keySpec (key : Key Symbol) (x : Var) (init : Option (Initform Symbol Form))

structure LambdaList (Symbol Form Var : Type) where
  required : List Var
  optional : List (OptionalParameter Symbol Form Var)
  rest : Option Var
  key : Option (List (KeyParameter Symbol Form Var))
  allowOtherKeys : Bool

variable {Symbol Form Var : Type}

namespace KeyParameter

def var : KeyParameter Symbol Form Var → Var
  | .atom x => x
  | .spec x _ => x
  | .keySpec _ x _ => x

def init : KeyParameter Symbol Form Var → Option (Initform Symbol Form)
  | .atom _ => none
  | .spec _ init => init
  | .keySpec _ _ init => init

end KeyParameter

/-- A supplied-p variable, if there is one. -/
def suppliedP (init : Option (Initform Symbol Form)) : List Symbol :=
  match init with
  | some init => init.suppliedP.toList
  | none => []

namespace LambdaList

def keys (l : LambdaList Symbol Form Var) : List (KeyParameter Symbol Form Var) := l.key.getD []

def parameters (l : LambdaList Symbol Form Var) : List (Var × Option (Initform Symbol Form)) :=
  l.required.map (·, none) ++ l.optional.map (fun p => (p.var, p.init)) ++
    l.rest.toList.map (·, none) ++ l.keys.map fun p => (p.var, p.init)

def vars (l : LambdaList Symbol Form Var) : List Var := l.parameters.map Prod.fst

def suppliedPs (l : LambdaList Symbol Form Var) : List Symbol :=
  l.parameters.flatMap fun p => suppliedP p.2

end LambdaList

/-- A declaration; the numbers stand for what else there is in it. -/
inductive Decl (Symbol : Type)
  /-- `OPTIMIZE`, `DECLARATION`, `DYNAMIC-EXTENT`, `FTYPE`, `INLINE`, `NOTINLINE` -/
  | lambda (n : ℕ)
  | special (names : List Symbol)
  | type (n : ℕ) (names : List Symbol)
  | other (n : ℕ) (names : List Symbol)

/-- A lambda expression. The names of the parameters are different. An `&AUX` variable without an
initform has the initform `NIL`. -/
structure Lambda (Symbol Form : Type) where
  lambdaList : LambdaList Symbol Form Symbol
  aux : Option (List (Symbol × Form))
  decls : List (Decl Symbol)
  nodup : (lambdaList.vars ++ lambdaList.suppliedPs).Nodup

/-- The forms of a rewritten lambda expression. -/
inductive Body (Symbol Form : Type)
  | forms
  | letStar (vars : List (Symbol × Form)) (decls : List (Decl Symbol))
      (body : Body Symbol Form)
  /-- `(let* ((special sym)) (declare (special special)) . body)` -/
  | rebind (special : Symbol) (sym : ℕ) (body : Body Symbol Form)

/-- A lambda expression without `&AUX`. -/
structure Expression (Symbol Form Var : Type) where
  lambdaList : LambdaList Symbol Form Var
  decls : List (Decl Symbol)
  body : Body Symbol Form

/-! ## `maybe-rewrite-lambda` -/

section Rewrite

variable [DecidableEq Symbol]

/-- `lambda-list-names` -/
def LambdaList.names (l : LambdaList Symbol Form Symbol) : List Symbol :=
  l.parameters.flatMap fun p => p.1 :: suppliedP p.2

/-- The declarations of a `DECLARE` expression: first those for the lambda, then those for the
`LET*`. -/
def rewriteAuxVarsProcessDecls (argVars : List Symbol) :
    List (Decl Symbol) → List (Decl Symbol) × List (Decl Symbol)
  | [] => ([], [])
  | decl :: decls =>
    let (lambdaDecls, letDecls) := rewriteAuxVarsProcessDecls argVars decls
    match decl with
    | .lambda n => (.lambda n :: lambdaDecls, letDecls)
    | .special names => split (fun name => .special [name]) names (lambdaDecls, letDecls)
    | .type n names => split (fun name => .type n [name]) names (lambdaDecls, letDecls)
    | .other n names => split (fun name => .other n [name]) names (lambdaDecls, letDecls)
where
  split (f : Symbol → Decl Symbol) : List Symbol → List (Decl Symbol) × List (Decl Symbol) →
      List (Decl Symbol) × List (Decl Symbol)
    | [], r => r
    | name :: names, r =>
      let (lambdaDecls, letDecls) := split f names r
      if name ∈ argVars then (f name :: lambdaDecls, letDecls)
      else (lambdaDecls, f name :: letDecls)

/-- `rewrite-aux-vars`, when the lambda list has `&AUX` -/
def rewriteAuxVars (l : Lambda Symbol Form) : Expression Symbol Form Symbol :=
  match l.aux with
  | none => ⟨l.lambdaList, l.decls, .forms⟩
  | some lets =>
    let (lambdaDecls, letDecls) := rewriteAuxVarsProcessDecls l.lambdaList.names l.decls
    ⟨l.lambdaList, lambdaDecls, .letStar lets letDecls .forms⟩

def processSpecialDeclarations : List (Decl Symbol) → List Symbol
  | [] => []
  | .special names :: decls => names ++ processSpecialDeclarations decls
  | _ :: decls => processSpecialDeclarations decls

def scanForSpecials (special : Symbol → Bool) (l : LambdaList Symbol Form Symbol) : List Symbol :=
  l.vars.foldl (fun specials var => if special var then var :: specials else specials) []

/-- The symbol of a special variable is put in its place. -/
def replaceName (special : Symbol) (sym : ℕ) (name : Name Symbol) : Name Symbol :=
  if name = .source special then .gensym sym else name

/-- A bare `x` becomes a bare symbol with another name. -/
def KeyParameter.replace (special : Symbol) (sym : ℕ) :
    KeyParameter Symbol Form (Name Symbol) → KeyParameter Symbol Form (Name Symbol)
  | .atom x => .atom (replaceName special sym x)
  | .spec x init =>
    if x = .source special then .keySpec (.keyword (.source special)) (.gensym sym) init
    else .spec x init
  | .keySpec key x init => .keySpec key (replaceName special sym x) init

def LambdaList.replace (special : Symbol) (sym : ℕ) (l : LambdaList Symbol Form (Name Symbol)) :
    LambdaList Symbol Form (Name Symbol) where
  required := l.required.map (replaceName special sym)
  optional := l.optional.map fun p => { p with var := replaceName special sym p.var }
  rest := l.rest.map (replaceName special sym)
  key := l.key.map (List.map (KeyParameter.replace special sym))
  allowOtherKeys := l.allowOtherKeys

def LambdaList.source (l : LambdaList Symbol Form Symbol) :
    LambdaList Symbol Form (Name Symbol) where
  required := l.required.map .source
  optional := l.optional.map fun p => { p with var := .source p.var }
  rest := l.rest.map .source
  key := l.key.map (List.map fun
    | .atom x => .atom (.source x)
    | .spec x init => .spec (.source x) init
    | .keySpec key x init => .keySpec key (.source x) init)
  allowOtherKeys := l.allowOtherKeys

def rewriteSpecial (special : Symbol) (sym : ℕ) (form : Expression Symbol Form (Name Symbol)) :
    Expression Symbol Form (Name Symbol) where
  lambdaList := form.lambdaList.replace special sym
  decls := form.decls
  body := .rebind special sym form.body

/-- One special after the other, each with a new symbol. -/
def rewriteSpecials : List Symbol → ℕ → Expression Symbol Form (Name Symbol) →
    Expression Symbol Form (Name Symbol)
  | [], _, form => form
  | special :: specials, sym, form =>
    rewriteSpecials specials (sym + 1) (rewriteSpecial special sym form)

/-- `proclaimed` is `special-variable-p`. -/
def maybeRewriteLambda (proclaimed : Symbol → Bool) (l : Lambda Symbol Form) :
    Expression Symbol Form (Name Symbol) :=
  let form := rewriteAuxVars l
  let declaredSpecials := processSpecialDeclarations form.decls
  let specials := scanForSpecials (fun var => proclaimed var || decide (var ∈ declaredSpecials))
    form.lambdaList
  rewriteSpecials specials 0 ⟨form.lambdaList.source, form.decls, form.body⟩

end Rewrite

/-! ## Meaning -/

inductive Problem
  | wrongNumberOfArguments
  | oddKeywordArguments
  | unrecognizedKeyword
  deriving DecidableEq

structure Objects (Symbol Value Exit : Type) where
  nil : Value
  t : Value
  list : List Value → Value
  key : Key Symbol → Value
  /-- `:ALLOW-OTHER-KEYS` -/
  allowOtherKeys : Value
  signal : Problem → Exit

inductive Step (Symbol Form Value : Type)
  | bind (special : Bool) (name : Name Symbol) (value : Value)
  | init (special : Bool) (name : Name Symbol) (form : Form)
  | check (problem : Option Problem)

/-- The symbols that the precompiler makes name values: nothing else refers to them. -/
structure Context (Symbol Value : Type) where
  env : Env Symbol
  syms : ℕ → Value

variable [DecidableEq Symbol] {Value World Exit α : Type}

def bindName (special : Bool) (name : Name Symbol) (value : Value) (ctx : Context Symbol Value)
    (k : Context Symbol Value → Computation Symbol Value World Exit α) :
    Computation Symbol Value World Exit α :=
  match name with
  | .source s => withVariable special s value ctx.env fun env => k { ctx with env := env }
  | .gensym n => k { ctx with syms := Function.update ctx.syms n value }

variable (obj : Objects Symbol Value Exit)
  (ev : Form → Env Symbol → Computation Symbol Value World Exit Value)

def run : List (Step Symbol Form Value) → Context Symbol Value →
    (Context Symbol Value → Computation Symbol Value World Exit α) →
    Computation Symbol Value World Exit α
  | [], ctx, k => k ctx
  | .bind special name value :: steps, ctx, k =>
    bindName special name value ctx fun ctx => run steps ctx k
  | .init special name form :: steps, ctx, k =>
    andThen (ev form ctx.env) fun value =>
      bindName special name value ctx fun ctx => run steps ctx k
  | .check none :: steps, ctx, k => run steps ctx k
  | .check (some problem) :: _, _, _ => fun s => (.error (obj.signal problem), s)

/-- The kind of a parameter, when `special` tells the special variables. -/
def Name.isSpecial (special : Symbol → Bool) : Name Symbol → Bool
  | .source s => special s
  | .gensym _ => false

section Steps

variable (special : Symbol → Bool)

/-- A parameter that gets an argument. -/
def suppliedSteps (name : Name Symbol) (init : Option (Initform Symbol Form)) (value : Value) :
    List (Step Symbol Form Value) :=
  .bind (name.isSpecial special) name value ::
    (suppliedP init).map fun s => .bind (special s) (.source s) obj.t

/-- A parameter that gets none. -/
def missingSteps (name : Name Symbol) (init : Option (Initform Symbol Form)) :
    List (Step Symbol Form Value) :=
  (match init with
    | none => .bind (name.isSpecial special) name obj.nil
    | some init => .init (name.isSpecial special) name init.form) ::
    (suppliedP init).map fun s => .bind (special s) (.source s) obj.nil

/-- There are enough arguments. -/
def requiredSteps : List (Name Symbol) → List Value → List (Step Symbol Form Value)
  | [], _ => []
  | name :: names, args =>
    .bind (name.isSpecial special) name (args.headD obj.nil) :: requiredSteps names args.tail

def optionalSteps : List (OptionalParameter Symbol Form (Name Symbol)) → List Value →
    List (Step Symbol Form Value)
  | [], _ => []
  | p :: ps, arg :: args => suppliedSteps obj special p.var p.init arg ++ optionalSteps ps args
  | p :: ps, [] => missingSteps obj special p.var p.init ++ optionalSteps ps []

variable [DecidableEq Value]

def lookupKey (key : Value) : List Value → Option Value
  | k :: value :: args => if k = key then some value else lookupKey key args
  | _ => none

def KeyParameter.key : KeyParameter Symbol Form (Name Symbol) → Key Symbol
  | .atom x => .keyword x
  | .spec x _ => .keyword x
  | .keySpec key _ _ => key

def keySteps (ps : List (KeyParameter Symbol Form (Name Symbol))) (args : List Value) :
    List (Step Symbol Form Value) :=
  ps.flatMap fun p =>
    match lookupKey (obj.key p.key) args with
    | some value => suppliedSteps obj special p.var p.init value
    | none => missingSteps obj special p.var p.init

/-- Is there an argument in the place of a keyword that is none of the keys? -/
def hasUnrecognized (known : List Value) : List Value → Bool
  | k :: _ :: args => (k ∉ known && k != obj.allowOtherKeys) || hasUnrecognized known args
  | _ => false

def checkArity (l : LambdaList Symbol Form (Name Symbol)) (args : List Value) : Option Problem :=
  if args.length < l.required.length ∨
      (l.rest.isNone ∧ l.key.isNone ∧ l.required.length + l.optional.length < args.length) then
    some .wrongNumberOfArguments
  else none

def checkOdd (l : LambdaList Symbol Form (Name Symbol)) (args : List Value) : Option Problem :=
  if l.key.isSome ∧ args.length % 2 = 1 then some .oddKeywordArguments else none

def checkKeywords (l : LambdaList Symbol Form (Name Symbol)) (args : List Value) :
    Option Problem :=
  if l.rest.isNone ∧ l.allowOtherKeys = false ∧
      (lookupKey obj.allowOtherKeys args).all (· = obj.nil) ∧
      hasUnrecognized obj (l.keys.map fun p => obj.key p.key) args then
    some .unrecognizedKeyword
  else none

/-- `Closure::execute` and `Closure::process_args` -/
def parameterSteps (l : LambdaList Symbol Form (Name Symbol)) (args : List Value) :
    List (Step Symbol Form Value) :=
  let restArgs := args.drop (l.required.length + l.optional.length)
  .check (checkArity l args) :: requiredSteps obj special l.required args ++
    optionalSteps obj special l.optional (args.drop l.required.length) ++
    l.rest.toList.map (fun name => .bind (name.isSpecial special) name (obj.list restArgs)) ++
    .check (checkOdd l restArgs) :: keySteps obj special l.keys restArgs ++
    [.check (checkKeywords obj l restArgs)]

end Steps

def auxSteps (special : Symbol → Bool) (vars : List (Symbol × Form)) :
    List (Step Symbol Form Value) :=
  vars.map fun var => .init (special var.1) (.source var.1) var.2

def isSpecial (proclaimed : Symbol → Bool) (decls : List (Decl Symbol)) (s : Symbol) : Bool :=
  proclaimed s || decide (s ∈ processSpecialDeclarations decls)

/-- Declarations about variables that are not bound here hold in the body. -/
def declareFree (bound : List Symbol) (decls : List (Decl Symbol)) (env : Env Symbol) :
    Env Symbol := fun s =>
  if s ∈ processSpecialDeclarations decls ∧ s ∉ bound then some .special else env s

/-- The symbols of the program among the parameters of a lambda list, with the supplied-p
variables. -/
def LambdaList.bound (l : LambdaList Symbol Form (Name Symbol)) : List Symbol :=
  l.vars.filterMap (fun
    | .source s => some s
    | .gensym _ => none) ++ l.suppliedPs

variable (proclaimed : Symbol → Bool) (body : Env Symbol → Computation Symbol Value World Exit α)

/-- `body` is the meaning of the forms in the source. -/
def Body.run : Body Symbol Form → Context Symbol Value → Computation Symbol Value World Exit α
  | .forms, ctx => body ctx.env
  | .letStar vars decls b, ctx =>
    RewriteLambda.run obj ev (auxSteps (isSpecial proclaimed decls) vars) ctx fun ctx =>
      b.run { ctx with env := declareFree (vars.map Prod.fst) decls ctx.env }
  | .rebind special sym b, ctx => bindName true (.source special) (ctx.syms sym) ctx b.run

variable [DecidableEq Value]

def Expression.apply (form : Expression Symbol Form (Name Symbol)) (args : List Value)
    (env : Env Symbol) : Computation Symbol Value World Exit α :=
  run obj ev (parameterSteps obj (isSpecial proclaimed form.decls) form.lambdaList args)
    ⟨env, fun _ => obj.nil⟩ fun ctx =>
      form.body.run obj ev proclaimed body
        { ctx with env := declareFree form.lambdaList.bound form.decls ctx.env }

/-- The `&AUX` variables are bound after the parameters. -/
def Lambda.apply (l : Lambda Symbol Form) (args : List Value) (env : Env Symbol) :
    Computation Symbol Value World Exit α :=
  run obj ev (parameterSteps obj (isSpecial proclaimed l.decls) l.lambdaList.source args ++
      auxSteps (isSpecial proclaimed l.decls) (l.aux.getD []))
    ⟨env, fun _ => obj.nil⟩ fun ctx =>
      body (declareFree (l.lambdaList.source.bound ++ (l.aux.getD []).map Prod.fst) l.decls ctx.env)

/-! ## The property -/

/-- The rewritten expression does the same with all arguments in all environments, whatever the
initforms and the body do. -/
def Preserves (proclaimed : Symbol → Bool) (l : Lambda Symbol Form) : Prop :=
  ∀ (Value World Exit α : Type) (_ : DecidableEq Value) (obj : Objects Symbol Value Exit)
    (ev : Form → Env Symbol → Computation Symbol Value World Exit Value)
    (body : Env Symbol → Computation Symbol Value World Exit α) (args : List Value)
    (env : Env Symbol),
    (maybeRewriteLambda proclaimed l).apply obj ev proclaimed body args env =
      l.apply obj ev proclaimed body args env

/-- No special parameter has a parameter with an initform behind it, no special keyword parameter is
a bare symbol, and no `&AUX` variable is special because of a declaration that is about a parameter
as well. -/
structure Safe (proclaimed : Symbol → Bool) (l : Lambda Symbol Form) : Prop where
  parameters : l.lambdaList.parameters.Pairwise fun p q =>
    isSpecial proclaimed l.decls p.1 = true → q.2.isNone
  atoms : ∀ x, KeyParameter.atom x ∈ l.lambdaList.keys → isSpecial proclaimed l.decls x = false
  aux : ∀ var ∈ l.aux.getD [], var.1 ∈ l.lambdaList.names →
    isSpecial proclaimed l.decls var.1 = proclaimed var.1

end Xcl.RewriteLambda
