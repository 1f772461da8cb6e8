import Xcl.Lib.Binding

/-!
# Nested LET* forms

* `Form`: LET* forms, declarations, and all other forms;
* `maybeFoldLetStar`: the function of the precompiler.
-/

namespace Xcl.LetStar

open Binding (Env Computation bindStar)

variable {Symbol : Type}

/-- A variable without an initform has the initform `NIL`. -/
inductive Form (Symbol : Type)
  | letStar (vars : List (Symbol × Form Symbol)) (body : List (Form Symbol))
  /-- A `DECLARE` expression, with the names of its `SPECIAL` declarations. -/
  | declare (specials : List Symbol)
  | other (n : ℕ)

/-- `maybe-fold-let*`. The body of the form must be one LET* form. -/
def maybeFoldLetStar : Form Symbol → Form Symbol
  | .letStar vars [.letStar vars' body'] =>
    match maybeFoldLetStar (.letStar vars' body') with
    | .letStar vars'' body'' => .letStar (vars ++ vars'') body''
    | form => form
  | form => form

/-! ## Meaning -/

def declaredSpecials : List (Form Symbol) → List Symbol
  | .declare specials :: body => specials ++ declaredSpecials body
  | _ => []

/-- What is behind the declarations. -/
def bodyForms : List (Form Symbol) → List (Form Symbol)
  | .declare _ :: body => bodyForms body
  | body => body

variable [DecidableEq Symbol] {Value World Exit : Type}

/-- A variable is bound as a special variable. -/
def isSpecial (proclaimed : Symbol → Bool) (body : List (Form Symbol)) (name : Symbol) : Bool :=
  proclaimed name || decide (name ∈ declaredSpecials body)

/-- In the body, free declarations hold too. -/
def declareSpecials (body : List (Form Symbol)) (env : Env Symbol) : Env Symbol := fun name =>
  if name ∈ declaredSpecials body then some .special else env name

/-- The meaning of a LET* form. `ev` is the meaning of the initforms and `progn` that of the forms
in the body of the innermost LET*; `proclaimed` tells the variables that are special everywhere. -/
def evalLetStar (proclaimed : Symbol → Bool)
    (ev : Form Symbol → Env Symbol → Computation Symbol Value World Exit Value)
    (progn : List (Form Symbol) → Env Symbol → Computation Symbol Value World Exit Value) :
    Form Symbol → Env Symbol → Computation Symbol Value World Exit Value
  | .letStar vars [.letStar vars' body'], env =>
    bindStar ev (isSpecial proclaimed [.letStar vars' body']) vars env fun env =>
      evalLetStar proclaimed ev progn (.letStar vars' body')
        (declareSpecials [.letStar vars' body'] env)
  | .letStar vars body, env =>
    bindStar ev (isSpecial proclaimed body) vars env fun env =>
      progn (bodyForms body) (declareSpecials body env)
  | form, env => ev form env

/-! ## Nests -/

/-- The bindings of all LET* forms of a nest but the innermost. -/
def outerVars : Form Symbol → List (Symbol × Form Symbol)
  | .letStar vars [.letStar vars' body'] => vars ++ outerVars (.letStar vars' body')
  | _ => []

def innerVars : Form Symbol → List (Symbol × Form Symbol)
  | .letStar _ [.letStar vars' body'] => innerVars (.letStar vars' body')
  | .letStar vars _ => vars
  | _ => []

def innerBody : Form Symbol → List (Form Symbol)
  | .letStar _ [.letStar vars' body'] => innerBody (.letStar vars' body')
  | .letStar _ body => body
  | _ => []

/-- A name declared special in the innermost LET* form is not bound further out, unless it is
special everywhere. -/
def DeclaresOwn (proclaimed : Symbol → Bool) (form : Form Symbol) : Prop :=
  ∀ var ∈ outerVars form, var.1 ∈ declaredSpecials (innerBody form) → proclaimed var.1 = true

end Xcl.LetStar
