import Mathlib.Data.List.Basic
import Mathlib.Logic.Function.Basic

/-!
# Macro lambda lists

* `LambdaList`: the well-formed lambda lists of `DEFMACRO` and `DESTRUCTURING-BIND`.
-/

namespace Xcl.Destructuring

/-! ## Data -/

/-- The objects in argument lists. -/
inductive Value
  | nil
  | t
  | atom (name : String)
  | cons (first rest : Value)
  deriving DecidableEq

def Value.ofBool (b : Bool) : Value := if b then .t else .nil

def car : Value → Option Value
  | .nil => some .nil
  | .cons first _ => some first
  | _ => none

def cdr : Value → Option Value
  | .nil => some .nil
  | .cons _ rest => some rest
  | _ => none

def listp : Value → Bool
  | .nil => true
  | .cons _ _ => true
  | _ => false

/-- The length of a proper list. -/
def length : Value → Option ℕ
  | .nil => some 0
  | .cons _ rest => (length rest).map (· + 1)
  | _ => none

/-! ## Lambda lists -/

inductive Init
  | absent
  | constant (value : Value)
  | form (i : ℕ) (vars : List String)

mutual

inductive Target
  | symbol (name : String)
  | nested (list : LambdaList)

inductive LambdaList
  | whole (target : Target) (rest : Required)
  | plain (rest : Required)

inductive Required
  | cons (target : Target) (rest : Required)
  | optionals (rest : Optionals)

/-- A parameter is a symbol or a list of a variable, an init form and a supplied-p variable. -/
inductive Optionals
  | var (name : String) (rest : Optionals)
  | cons (target : Target) (init : Init) (suppliedVar : Option String) (rest : Optionals)
  | tail (rest : Tail)

/-- `&REST` and `&BODY`, or a dotted end. -/
inductive Tail
  | dotted (name : String)
  | rest (target : Target) (keys : KeyPart)
  | noRest (keys : KeyPart)

inductive KeyPart
  | key (keys : Keys)
  | noKey (auxs : List (String × Init))

inductive Keys
  | var (keyword name : String) (rest : Keys)
  | cons (keyword : String) (target : Target) (init : Init) (suppliedVar : Option String)
    (rest : Keys)
  | done (allowOtherKeys : Bool) (auxs : List (String × Init))

end

/-! ## The code that is built -/

/-- The variables in the code. -/
inductive Name
  | user (name : String)
  | gensym (g : ℕ)

/-- The path to a list: some calls of `CDR` on a new variable. -/
structure Path where
  base : ℕ
  drops : ℕ

/-- `(cdr path)`. -/
def Path.cdr (path : Path) : Path := ⟨path.base, path.drops + 1⟩

inductive Code
  | path (path : Path)
  | car (path : Path)
  /-- `(not (null path))`. -/
  | given (path : Path)
  /-- `(if (not (null path)) (car path) nil)`. -/
  | optionalCar (path : Path)
  | keywordSuppliedP (keyword : String) (list : ℕ)
  | lookupKeyword (keyword : String) (list : ℕ)
  | init (init : Init)
  | ite (test : Name) (yes no : Code)
  /-- The value must be a list. -/
  | sublist (code : Code)

inductive Test
  | argCount (path : Path) (minimum maximum : ℕ)
  | verifyKeywords (list : ℕ) (keys : List String) (allowOtherKeys : Bool)

/-- `*system-lets*`, `*arg-tests*` and `*user-lets*`, and the number of the next new variable. -/
structure Output where
  systemLets : List (Name × Code)
  argTests : List Test
  userLets : List (String × Code)
  next : ℕ

/-- Tests are pushed in front. -/
def Output.append (a b : Output) : Output where
  systemLets := a.systemLets ++ b.systemLets
  argTests := b.argTests ++ a.argTests
  userLets := a.userLets ++ b.userLets
  next := b.next

def Output.system (n : ℕ) (name : Name) (code : Code) : Output := ⟨[(name, code)], [], [], n⟩

def Output.user (n : ℕ) (name : String) (code : Code) : Output := ⟨[], [], [(name, code)], n⟩

/-- The variable for supplied-p, a new one if there is none. -/
def suppliedName (n : ℕ) : Option String → Name
  | some name => .user name
  | none => .gensym n

def suppliedNext (n : ℕ) : Option String → ℕ
  | some _ => n
  | none => n + 1

def auxLets (auxs : List (String × Init)) : List (String × Code) :=
  auxs.map fun aux => (aux.1, .init aux.2)

mutual

/-- A variable is bound with the user's variables; a list to a new variable, whose sublists are
parsed. -/
def parseTarget (code : Code) (n : ℕ) : Target → Output
  | .symbol name => .user n name code
  | .nested list =>
    -- `push-sub-list-binding`
    (Output.system (n + 1) (.gensym n) (.sublist code)).append
      (parseDefmacroLambdaList n ⟨n, 0⟩ (n + 1) list)

/-- `parse-defmacro-lambda-list`, with the variable that holds the whole list and the path to the
arguments. -/
def parseDefmacroLambdaList (argListName : ℕ) (path : Path) (n : ℕ) : LambdaList → Output
  | .whole target rest =>
    let o := parseTarget (.path ⟨argListName, 0⟩) n target
    o.append (parseRequired path 0 path o.next rest)
  | .plain rest => parseRequired path 0 path n rest

def parseRequired (path0 : Path) (minimum : ℕ) (path : Path) (n : ℕ) : Required → Output
  | .cons target rest =>
    let o := parseTarget (.car path) n target
    o.append (parseRequired path0 (minimum + 1) path.cdr o.next rest)
  | .optionals rest => parseOptionals path0 minimum minimum path n rest

def parseOptionals (path0 : Path) (minimum maximum : ℕ) (path : Path) (n : ℕ) :
    Optionals → Output
  | .var name rest =>
    (Output.user n name (.optionalCar path)).append
      (parseOptionals path0 minimum (maximum + 1) path.cdr n rest)
  | .cons target init suppliedVar rest =>
    -- `push-optional-binding`
    let supplied := suppliedName n suppliedVar
    let o := (Output.system (suppliedNext n suppliedVar) supplied (.given path)).append
      (parseTarget (.ite supplied (.car path) (.init init)) (suppliedNext n suppliedVar) target)
    o.append (parseOptionals path0 minimum (maximum + 1) path.cdr o.next rest)
  | .tail rest => parseTail path0 minimum maximum path n rest

def parseTail (path0 : Path) (minimum maximum : ℕ) (path : Path) (n : ℕ) : Tail → Output
  | .dotted name => .user n name (.path path)
  | .rest target keys =>
    let o := parseTarget (.path path) n target
    o.append (parseKeyPart path0 minimum maximum path true o.next keys)
  | .noRest keys => parseKeyPart path0 minimum maximum path false n keys

def parseKeyPart (path0 : Path) (minimum maximum : ℕ) (path : Path) (restp : Bool) (n : ℕ) :
    KeyPart → Output
  | .key keys =>
    (Output.system (n + 1) (.gensym n) (.path path)).append (parseKeys n [] (n + 1) keys)
  | .noKey auxs =>
    -- the arguments are not counted if there is a `&REST` or `&KEY`
    ⟨[], if restp then [] else [.argCount path0 minimum maximum], auxLets auxs, n⟩

def parseKeys (list : ℕ) (keys : List String) (n : ℕ) : Keys → Output
  | .var keyword name rest =>
    (Output.user n name (.lookupKeyword keyword list)).append
      (parseKeys list (keyword :: keys) n rest)
  | .cons keyword target init suppliedVar rest =>
    let supplied := suppliedName n suppliedVar
    let o := (Output.system (suppliedNext n suppliedVar) supplied
      (.keywordSuppliedP keyword list)).append
      (parseTarget (.ite supplied (.lookupKeyword keyword list) (.init init))
        (suppliedNext n suppliedVar) target)
    o.append (parseKeys list (keyword :: keys) o.next rest)
  | .done allowOtherKeys auxs =>
    ⟨[], if keys.isEmpty then [] else [.verifyKeywords list keys allowOtherKeys], auxLets auxs, n⟩

end

/-! ## Keyword lists -/

def lookupKeyword (keyword : String) : Value → Option Value
  | .nil => some .nil
  | .cons k (.cons v rest) => if k = .atom keyword then some v else lookupKeyword keyword rest
  | .cons _ .nil => some .nil
  | _ => none

def keywordSuppliedP (keyword : String) : Value → Option Bool
  | .nil => some false
  | .cons k rest =>
    if k = .atom keyword then some true
    else match rest with
      | .nil => some false
      | .cons _ rest => keywordSuppliedP keyword rest
      | _ => none
  | _ => none

/-- The loop of `verify-keywords`: the last unknown keyword. -/
def verifyLoop (keys : List String) : Value → Value → Option Value
  | .nil, unknown => some unknown
  | .cons k (.cons _ rest), unknown =>
    if k = .atom "ALLOW-OTHER-KEYS" ∨ k ∈ keys.map Value.atom then verifyLoop keys rest unknown
    else verifyLoop keys rest k
  | _, _ => none

/-- Whether `verify-keywords` finds no problem. -/
def verifyKeywords (list : Value) (keys : List String) (allowOtherKeys : Bool) : Bool :=
  match verifyLoop keys list .nil with
  | none => false
  | some unknown =>
    unknown = .nil || allowOtherKeys ||
      match lookupKeyword "ALLOW-OTHER-KEYS" list with
      | some v => v ≠ .nil
      | none => false

/-! ## Execution -/

/-- The value of a path, from the values of the new variables; `none` is an error. -/
def Path.value (G : ℕ → Value) (path : Path) : Option Value :=
  (List.range path.drops).foldl (fun v _ => v.bind Destructuring.cdr) (some (G path.base))

section Run

variable {σ : Type}

/-- What the init forms do to a state, given the values of their free variables. -/
abbrev Interp (σ : Type) := ℕ → List Value → σ → Value × σ

variable (I : Interp σ)

def evalInit (U : String → Value) (s : σ) : Init → Value × σ
  | .absent => (.nil, s)
  | .constant value => (value, s)
  | .form i vars => I i (vars.map U) s

/-- The value of a variable, from those of the user's variables and of the new variables. -/
def Name.value (U : String → Value) (G : ℕ → Value) : Name → Value
  | .user name => U name
  | .gensym g => G g

def eval (U : String → Value) (G : ℕ → Value) : Code → σ → Option (Value × σ)
  | .path path, s => do return (← path.value G, s)
  | .car path, s => do return (← Destructuring.car (← path.value G), s)
  | .given path, s => do return (.ofBool ((← path.value G) ≠ .nil), s)
  | .optionalCar path, s => do
    let v ← path.value G
    if v ≠ .nil then return (← Destructuring.car v, s) else return (.nil, s)
  | .keywordSuppliedP keyword list, s => do
    return (.ofBool (← Destructuring.keywordSuppliedP keyword (G list)), s)
  | .lookupKeyword keyword list, s => do
    return (← Destructuring.lookupKeyword keyword (G list), s)
  | .init init, s => some (evalInit I U s init)
  | .ite test yes no, s => if test.value U G ≠ .nil then eval U G yes s else eval U G no s
  | .sublist code, s => do
    let (v, s) ← eval U G code s
    if listp v then return (v, s) else none

/-- The variables of the user, the new variables and the state. -/
abbrev SystemState (σ : Type) := (String → Value) × (ℕ → Value) × σ

def bindName (name : Name) (value : Value) (st : SystemState σ) : SystemState σ :=
  match name with
  | .user name => (Function.update st.1 name value, st.2)
  | .gensym g => (st.1, Function.update st.2.1 g value, st.2.2)

def runSystem : List (Name × Code) → SystemState σ → Option (SystemState σ)
  | [], st => some st
  | (name, code) :: rest, st => do
    let (v, s) ← eval I st.1 st.2.1 code st.2.2
    runSystem rest (bindName name v (st.1, st.2.1, s))

def runTest (G : ℕ → Value) : Test → Bool
  | .argCount path minimum maximum =>
    match (path.value G).bind length with
    | some n => minimum ≤ n && n ≤ maximum
    | none => false
  | .verifyKeywords list keys allowOtherKeys => verifyKeywords (G list) keys allowOtherKeys

/-- The user's variables and the state. -/
abbrev Bound (σ : Type) := (String → Value) × σ

/-- Bindings of the user's variables, or an error. -/
abbrev Binder (σ : Type) := Bound σ → Option (Bound σ)

def runUser (G : ℕ → Value) : List (String × Code) → Binder σ
  | [], b => some b
  | (name, code) :: rest, b => do
    let (v, s) ← eval I b.1 G code b.2
    runUser G rest (Function.update b.1 name v, s)

def Output.finish (o : Output) (G : ℕ → Value) : Binder σ := fun b =>
  if o.argTests.all (runTest G) then runUser I G o.userLets b else none

/-- What the code gets: the form of a macro call, with its operator, or the list of arguments of
a `DESTRUCTURING-BIND`. -/
def argList : Option Value → Value → Value
  | some operator, args => .cons operator args
  | none, args => args

/-- The code of a lambda list, which gets its argument list in the new variable 0. The three parts
are executed one after the other. -/
def run (operator : Option Value) (list : LambdaList) (args : Value) : Binder σ := fun b => do
  let o := parseDefmacroLambdaList 0 ⟨0, if operator.isSome then 1 else 0⟩ 1 list
  let (U, G, s) ← runSystem I o.systemLets
    (b.1, Function.update (fun _ => .nil) 0 (argList operator args), b.2)
  o.finish I G (U, s)

/-! ## The prescribed binding -/

def assign (name : String) (value : Value) : Binder σ :=
  fun b => some (Function.update b.1 name value, b.2)

def assignSupplied (value : Value) : Option String → Binder σ
  | some name => assign name value
  | none => some

def assignInit (name : String) (init : Init) : Binder σ := fun b =>
  let r := evalInit I b.1 b.2 init
  some (Function.update b.1 name r.1, r.2)

def bindAuxs : List (String × Init) → Binder σ
  | [] => some
  | (name, init) :: rest => fun b => (assignInit I name init b).bind (bindAuxs rest)

def keywordsValid (keys : List String) (allow : Bool) : Value → Bool
  | .nil => true
  | .cons k (.cons _ rest) =>
    (k = .atom "ALLOW-OTHER-KEYS" || k ∈ keys.map Value.atom || allow) &&
      keywordsValid keys allow rest
  | _ => false

def keywordValue (keyword : String) : Value → Option Value
  | .cons k (.cons v rest) => if k = .atom keyword then some v else keywordValue keyword rest
  | _ => none

/-- The caller can allow other keys. -/
def othersAllowed (list : Value) : Bool :=
  match keywordValue "ALLOW-OTHER-KEYS" list with
  | some v => v ≠ .nil
  | none => false

def Keys.keywords : Keys → List String
  | .var keyword _ rest => keyword :: rest.keywords
  | .cons keyword _ _ _ rest => keyword :: rest.keywords
  | .done _ _ => []

def Keys.allowOtherKeys : Keys → Bool
  | .var _ _ rest => rest.allowOtherKeys
  | .cons _ _ _ _ rest => rest.allowOtherKeys
  | .done allowOtherKeys _ => allowOtherKeys

/-- The value of a parameter that may be missing, by its init form. -/
def bindGiven (given : Option Value) (init : Init) (target : Value → Binder σ)
    (suppliedVar : Option String) : Binder σ := fun b =>
  match given with
  | some v => (target v b).bind (assignSupplied .t suppliedVar)
  | none =>
    let r := evalInit I b.1 b.2 init
    (target r.1 (b.1, r.2)).bind (assignSupplied .nil suppliedVar)

mutual

def bindTarget : Target → Value → Binder σ
  | .symbol name, v => assign name v
  | .nested list, v => fun b => if listp v then bindLambdaList list v v b else none

/-- The binding of a lambda list, from left to right. -/
def bindLambdaList : LambdaList → Value → Value → Binder σ
  | .whole target rest, whole, args => fun b =>
    (bindTarget target whole b).bind (bindRequired rest args)
  | .plain rest, _, args => bindRequired rest args

def bindRequired : Required → Value → Binder σ
  | .cons target rest, .cons a args => fun b =>
    (bindTarget target a b).bind (bindRequired rest args)
  | .cons _ _, _ => fun _ => none
  | .optionals rest, args => bindOptionals rest args

def bindOptionals : Optionals → Value → Binder σ
  | .var name rest, .nil => fun b => (assign name .nil b).bind (bindOptionals rest .nil)
  | .var name rest, .cons a args => fun b => (assign name a b).bind (bindOptionals rest args)
  | .var _ _, _ => fun _ => none
  | .cons target init suppliedVar rest, .nil => fun b =>
    (bindGiven I none init (bindTarget target) suppliedVar b).bind (bindOptionals rest .nil)
  | .cons target init suppliedVar rest, .cons a args => fun b =>
    (bindGiven I (some a) init (bindTarget target) suppliedVar b).bind (bindOptionals rest args)
  | .cons _ _ _ _, _ => fun _ => none
  | .tail rest, args => bindTail rest args

def bindTail : Tail → Value → Binder σ
  | .dotted name, args => assign name args
  | .rest target keys, args => fun b => (bindTarget target args b).bind (bindKeyPart keys true args)
  | .noRest keys, args => bindKeyPart keys false args

def bindKeyPart : KeyPart → Bool → Value → Binder σ
  | .key keys, _, args => fun b =>
    if keywordsValid keys.keywords (keys.allowOtherKeys || othersAllowed args) args then
      bindKeys keys args b
    else none
  | .noKey auxs, restp, args => fun b => if restp || args = .nil then bindAuxs I auxs b else none

def bindKeys : Keys → Value → Binder σ
  | .var keyword name rest, args => fun b =>
    (assign name ((keywordValue keyword args).getD .nil) b).bind (bindKeys rest args)
  | .cons keyword target init suppliedVar rest, args => fun b =>
    (bindGiven I (keywordValue keyword args) init (bindTarget target) suppliedVar b).bind
      (bindKeys rest args)
  | .done _ auxs, _ => bindAuxs I auxs

end

end Run

end Xcl.Destructuring
