import Mathlib.Data.List.Basic
import Mathlib.Logic.Function.Basic

/-!
# The macros that update places

* `Place`: a place, with the expansions of the macros in it.

The argument forms and the subforms of places are numbered.
-/

namespace Xcl.Setf

/-! ## Places and forms -/

inductive Place
  | var (name : String)
  /-- A symbol macro, of `SYMBOL-MACROLET` or of `DEFINE-SYMBOL-MACRO`. -/
  | symbolMacro (global : Bool) (name : String) (expansion : Place)
  | accessor (name : String) (inverse : Option String) (args : List ℕ)
  | globalMacro (expansion : Place)
  | localMacro (expansion outside : Place)
  | the (type : String) (place : Place)

inductive Primitive
  | cons
  | car
  | cdr
  | plus
  | minus

inductive Function
  | accessor (name : String)
  | inverse (name : String)
  /-- `#'(setf name)`. -/
  | setfFunction (name : String)

inductive Form
  | form (i : ℕ)
  | constant (i : ℕ)
  /-- A variable that was made by `gensym`. -/
  | gensym (g : ℕ)
  | var (name : String)
  | primitive (op : Primitive) (args : List Form)
  | call (fn : Function) (args : List Form)
  | the (type : String) (form : Form)
  | setq (name : String) (value : Form)
  | setqGensym (g : ℕ) (value : Form)
  | letForm (g : ℕ) (value body : Form)
  | prog1 (first rest : Form)
  | progn (first rest : Form)

def letStar : List (ℕ × Form) → Form → Form
  | [], body => body
  | (g, value) :: rest, body => .letForm g value (letStar rest body)

/-! ## The expansions -/

/-- What `get-setf-expansion` returns. -/
structure Expansion where
  vars : List ℕ
  vals : List Form
  store : ℕ
  setter : Form
  getter : Form

/-- The bindings of the subforms. -/
def Expansion.bindings (e : Expansion) : List (ℕ × Form) := e.vars.zip e.vals

/-- The subforms are bound in order, then the new value, then the place is set. -/
def Expansion.setForm (e : Expansion) (value : Form) : Form :=
  letStar (e.bindings ++ [(e.store, value)]) e.setter

def getSetfMethodInverse (n : ℕ) (name : String) (inverse : Option String) (args : List ℕ) :
    Expansion :=
  let vars := (List.range' (n + 1) args.length).reverse
  { vars := vars
    vals := args.map .form
    store := n
    setter := match inverse with
      | some inverse => .call (.inverse inverse) (vars.map .gensym ++ [.gensym n])
      | none => .call (.setfFunction name) (.gensym n :: vars.map .gensym)
    getter := .call (.accessor name) (vars.map .gensym) }

/-- The `SETF` expander of `THE`. -/
def Expansion.the (type : String) (e : Expansion) : Expansion :=
  { e with
    setter := .letForm e.store (.the type (.gensym e.store)) e.setter
    getter := .the type e.getter }

def precompile1 : Place → Form
  | .var name => .var name
  | .symbolMacro _ _ expansion => precompile1 expansion
  | .accessor name _ args => .call (.accessor name) (args.map .form)
  | .globalMacro expansion => precompile1 expansion
  | .localMacro expansion _ => precompile1 expansion
  | .the type place => .the type (precompile1 place)

mutual

/-- `get-setf-expansion`, which sees the local macros if it gets the environment. The precompiler
makes a `SETF` of the `SETQ` of a symbol macro. New variables are numbered from `n` on. -/
def getSetfExpansion (n : ℕ) (env : Bool) : Place → Expansion
  | .var name =>
    { vars := [], vals := [], store := n, setter := .setq name (.gensym n),
      getter := .var name }
  | .symbolMacro _ _ expansion =>
    { vars := [], vals := [], store := n, setter := setf (n + 1) expansion (.gensym n),
      getter := precompile1 expansion }
  | .accessor name inverse args => getSetfMethodInverse n name inverse args
  | .globalMacro expansion => getSetfExpansion n env expansion
  | .localMacro expansion outside =>
    if env then getSetfExpansion n env expansion else getSetfExpansion n env outside
  | .the type place => (getSetfExpansion n env place).the type

/-- `(setf place value)`, and `(setq place value)` for a symbol. -/
def setf (n : ℕ) : Place → Form → Form
  | .var name, value => .setq name value
  | .symbolMacro _ _ expansion, value => setf n expansion value
  | .accessor _ (some inverse) args, value => .call (.inverse inverse) (args.map .form ++ [value])
  | .accessor name none args, value => (getSetfMethodInverse n name none args).setForm value
  | .globalMacro expansion, value => (getSetfExpansion n true expansion).setForm value
  | .localMacro expansion _, value => (getSetfExpansion n true expansion).setForm value
  | .the type place, value => ((getSetfExpansion n true place).the type).setForm value

end

def push (item : Form) : Place → Form
  | .var name => .setq name (.primitive .cons [item, .var name])
  -- `(macroexpand place)` has no environment, so it only expands global symbol macros
  | .symbolMacro false _ expansion =>
    setf 0 expansion (.primitive .cons [item, precompile1 expansion])
  | place =>
    let e := getSetfExpansion 1 false place
    letStar ((0, item) :: e.bindings ++ [(e.store, .primitive .cons [.gensym 0, e.getter])])
      e.setter

def pop : Place → Form
  | .var name =>
    .prog1 (.primitive .car [.var name]) (.setq name (.primitive .cdr [.var name]))
  | .symbolMacro false _ expansion =>
    .prog1 (.primitive .car [precompile1 expansion])
      (setf 0 expansion (.primitive .cdr [precompile1 expansion]))
  | place =>
    let e := getSetfExpansion 0 true place
    letStar (e.bindings ++ [(e.store, e.getter)])
      (.prog1 (.primitive .car [.gensym e.store])
        (.progn (.setqGensym e.store (.primitive .cdr [.gensym e.store])) e.setter))

/-- The delta of `INCF` and `DECF`. -/
inductive Delta
  | constant (i : ℕ)
  | form (i : ℕ)

def Delta.toForm : Delta → Form
  | .constant i => .constant i
  | .form i => .form i

/-- `incf-complex` and `decf-complex`, by `define-modify-macro`. -/
def modifyComplex (op : Primitive) (delta : Delta) (place : Place) : Form :=
  let e := getSetfExpansion 0 true place
  letStar (e.bindings ++ [(e.store, .primitive op [e.getter, delta.toForm])]) e.setter

/-- `INCF` and `DECF` of a symbol. -/
def modifySymbol (op : Primitive) (delta : Delta) (place : Place) : Form :=
  match delta with
  | .constant i => setf 0 place (.primitive op [precompile1 place, .constant i])
  | .form i =>
    .letForm 0 (.form i) (setf 1 place (.primitive op [precompile1 place, .gensym 0]))

def modify (op : Primitive) (delta : Delta) : Place → Form
  | .var name => modifySymbol op delta (.var name)
  | .symbolMacro global name expansion => modifySymbol op delta (.symbolMacro global name expansion)
  | .the type place =>
    .letForm 0 (.the type (.primitive op [.the type (precompile1 place), delta.toForm]))
      (setf 1 place (.gensym 0))
  | place => modifyComplex op delta place

def incf (delta : Delta) : Place → Form := modify .plus delta

def decf (delta : Delta) : Place → Form := modify .minus delta

/-- A call of one of the macros, without the place. -/
inductive Op
  | setf (value : ℕ)
  | push (item : ℕ)
  | pop
  | incf (delta : Delta)
  | decf (delta : Delta)

def Op.expand : Op → Place → Form
  | .setf value, place => Setf.setf 0 place (.form value)
  | .push item, place => Setf.push (.form item) place
  | .pop, place => Setf.pop place
  | .incf delta, place => Setf.incf delta place
  | .decf delta, place => Setf.decf delta place

/-! ## Evaluation -/

/-- What the forms and functions do to a state `σ`, with values in `V`. -/
structure Interp (σ V : Type) where
  constant : ℕ → V
  form : ℕ → σ → V × σ
  get : String → σ → V
  set : String → V → σ → σ
  primitive : Primitive → List V → V
  call : Function → List V → σ → V × σ

section Eval

variable {σ V : Type} (I : Interp σ V)

mutual

/-- The state has the values of the new variables and the state of the program. -/
def eval : Form → (ℕ → V) × σ → V × ((ℕ → V) × σ)
  | .form i, st =>
    let r := I.form i st.2
    (r.1, (st.1, r.2))
  | .constant i, st => (I.constant i, st)
  | .gensym g, st => (st.1 g, st)
  | .var name, st => (I.get name st.2, st)
  | .primitive op args, st =>
    let r := evalForms args st
    (I.primitive op r.1, r.2)
  | .call fn args, st =>
    let r := evalForms args st
    let c := I.call fn r.1 r.2.2
    (c.1, (r.2.1, c.2))
  | .the _ form, st => eval form st
  | .setq name value, st =>
    let r := eval value st
    (r.1, (r.2.1, I.set name r.1 r.2.2))
  | .setqGensym g value, st =>
    let r := eval value st
    (r.1, (Function.update r.2.1 g r.1, r.2.2))
  | .letForm g value body, st =>
    let r := eval value st
    eval body (Function.update r.2.1 g r.1, r.2.2)
  | .prog1 first rest, st =>
    let r := eval first st
    (r.1, (eval rest r.2).2)
  | .progn first rest, st => eval rest (eval first st).2

def evalForms : List Form → (ℕ → V) × σ → List V × ((ℕ → V) × σ)
  | [], st => ([], st)
  | form :: rest, st =>
    let r := eval form st
    let rs := evalForms rest r.2
    (r.1 :: rs.1, rs.2)

end

/-- The value and the state of the program after an evaluation. -/
def result (form : Form) (st : (ℕ → V) × σ) : V × σ :=
  ((eval I form st).1, (eval I form st).2.2)

/-! ## The prescribed evaluation -/

/-- The place that is left when macros are expanded and types dropped. -/
inductive Core
  | var (name : String)
  | accessor (name : String) (inverse : Option String) (args : List ℕ)
  deriving DecidableEq

def Place.core : Place → Core
  | .var name => .var name
  | .symbolMacro _ _ expansion => expansion.core
  | .accessor name inverse args => .accessor name inverse args
  | .globalMacro expansion => expansion.core
  | .localMacro expansion _ => expansion.core
  | .the _ place => place.core

/-- The subforms of the place. -/
def Core.args : Core → List ℕ
  | .var _ => []
  | .accessor _ _ args => args

def Core.read : Core → List V → σ → V × σ
  | .var name, _, s => (I.get name s, s)
  | .accessor name _ _, xs, s => I.call (.accessor name) xs s

def Core.store : Core → List V → V → σ → V × σ
  | .var name, _, v, s => (v, I.set name v s)
  | .accessor _ (some inverse) _, xs, v, s => I.call (.inverse inverse) (xs ++ [v]) s
  | .accessor name none _, xs, v, s => I.call (.setfFunction name) (v :: xs) s

/-- Forms are evaluated from left to right. -/
def Interp.forms : List ℕ → σ → List V × σ
  | [], s => ([], s)
  | i :: rest, s =>
    let r := I.form i s
    let rs := Interp.forms rest r.2
    (r.1 :: rs.1, rs.2)

def Interp.delta : Delta → σ → V × σ
  | .constant i, s => (I.constant i, s)
  | .form i, s => I.form i s

def prescribedModify (op : Primitive) (delta : Delta) (core : Core) (s : σ) : V × σ :=
  let a := I.forms core.args s
  let d := I.delta delta a.2
  let r := core.read I a.1 d.2
  core.store I a.1 (I.primitive op [r.1, d.1]) r.2

/-- Every subform is evaluated once and in order, then the place is read, then it is set. -/
def prescribed : Op → Core → σ → V × σ
  | .setf value, core, s =>
    let a := I.forms core.args s
    let v := I.form value a.2
    core.store I a.1 v.1 v.2
  | .push item, core, s =>
    let i := I.form item s
    let a := I.forms core.args i.2
    let r := core.read I a.1 a.2
    core.store I a.1 (I.primitive .cons [i.1, r.1]) r.2
  | .pop, core, s =>
    let a := I.forms core.args s
    let r := core.read I a.1 a.2
    let w := core.store I a.1 (I.primitive .cdr [r.1]) r.2
    (I.primitive .car [r.1], w.2)
  | .incf delta, core, s => prescribedModify I .plus delta core s
  | .decf delta, core, s => prescribedModify I .minus delta core s

end Eval

end Xcl.Setf
