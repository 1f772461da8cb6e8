import Xcl.Lib.Code

/-!
# Multiple values in compiled code

A function returns its primary value in a register and, when it returns several values or none,
all its values in a buffer of the thread. A buffer that is cleared stands for one value. Compiled
code clears the buffer after forms that may set it.

* `Form`, `Node`, `p1`: the forms, before and after the first pass;
* `singleValuedP`: the forms that leave a cleared buffer cleared.
-/

namespace Xcl.MultipleValues

open Structured

/-! ## Forms -/

/-- A constant or a variable. -/
inductive Atom
  | nil
  | t
  | other
  deriving DecidableEq

/-- A function. `single` says that `operator-single-valued-p` or its `FTYPE` declares it to return
one value, `negates` that it is `NOT` or `NULL`. -/
structure Op where
  single : Bool
  negates : Bool
  deriving DecidableEq

/-- What `p1-the` and `p1-require-type` make of a type. -/
inductive TypeCheck
  /-- The type is `T` or a `VALUES` type. -/
  | skip
  /-- Safety is 0. -/
  | trust
  | progn
  | require (op : Op)
  /-- A test of the type, and a function that signals the error. -/
  | test (predicate error : Op)

mutual

/-- The forms; `LET` and `LET*` treat values alike. -/
inductive Form
  /-- A constant, a variable or `QUOTE`. -/
  | atom (a : Atom)
  | setq (value : Form)
  | cond (test consequent alternate : Form)
  | progn (body : Forms)
  | letForm (initforms body : Forms)
  | block (name : String) (body : Forms)
  | returnFrom (name : String) (result : Form)
  | tagbody (items : Items)
  | go (tag : String)
  | the (check : TypeCheck) (expr : Form)
  | call (op : Op) (args : Forms)

inductive Forms
  | nil
  | cons (first : Form) (rest : Forms)

/-- The tags and forms of a `TAGBODY`. -/
inductive Items
  | nil
  | tag (name : String) (rest : Items)
  | form (form : Form) (rest : Items)

end

mutual

/-- Forms after the first pass. A `BLOCK` has the `RETURN-FROM` forms of `block-return-p`. -/
inductive Node
  | atom (a : Atom)
  | setq (value : Node)
  | cond (test consequent alternate : Node)
  | progn (body : Nodes)
  | letNode (initforms body : Nodes)
  | block (name : String) (returns : Nodes) (body : Nodes)
  | returnFrom (name : String) (result : Node)
  | tagbody (items : NodeItems)
  | go (tag : String)
  | trulyThe (expr : Node)
  | call (op : Op) (args : Nodes)

inductive Nodes
  | nil
  | cons (first : Node) (rest : Nodes)

inductive NodeItems
  | nil
  | tag (name : String) (rest : NodeItems)
  | form (node : Node) (rest : NodeItems)

end

/-! ## The first pass -/

mutual

/-- `unsafe-p`. -/
def Form.isUnsafe : Form → Bool
  | .atom _ => false
  | .setq value => value.isUnsafe
  | .cond test consequent alternate =>
    test.isUnsafe || consequent.isUnsafe || alternate.isUnsafe
  | .progn body => body.isUnsafe
  | .letForm initforms body => initforms.isUnsafe || body.isUnsafe
  | .block _ body => body.isUnsafe
  | .returnFrom _ _ => true
  | .tagbody items => items.isUnsafe
  | .go _ => true
  | .the _ expr => expr.isUnsafe
  | .call _ args => args.isUnsafe

def Forms.isUnsafe : Forms → Bool
  | .nil => false
  | .cons first rest => first.isUnsafe || rest.isUnsafe

def Items.isUnsafe : Items → Bool
  | .nil => false
  | .tag _ rest => rest.isUnsafe
  | .form form rest => form.isUnsafe || rest.isUnsafe

end

/-- A `GO` or a `RETURN-FROM`. -/
def Form.leaves : Form → Bool
  | .go _ => true
  | .returnFrom _ _ => true
  | _ => false

/-- References of as many new variables. -/
def Nodes.variables : Nodes → Nodes
  | .nil => .nil
  | .cons _ rest => .cons (.atom .other) rest.variables

def Nodes.ofList : List Node → Nodes
  | [] => .nil
  | node :: nodes => .cons node (.ofList nodes)

/-- A call, after `maybe-rewrite-function-call`. -/
def callNode (isUnsafe : Bool) (op : Op) (args : Nodes) : Node :=
  if isUnsafe then .letNode args (.ofList [.call op args.variables]) else .call op args

/-- `p1-the` on the first pass of the expression. -/
def theNode (isUnsafe : Bool) (check : TypeCheck) (expr : Node) : Node :=
  match check with
  | .skip => expr
  | .trust => .trulyThe expr
  | .progn => .trulyThe (.progn (.ofList [expr]))
  | .require op => .trulyThe (callNode isUnsafe op (.ofList [expr]))
  | .test predicate error =>
    -- `(let ((sym expr)) (unless (predicate sym) (error sym type)) sym)`
    .trulyThe (.letNode (.ofList [expr])
      (.ofList [.cond (.call ⟨true, true⟩ (.ofList [.call predicate (.ofList [.atom .other])]))
        (.call error (.ofList [.atom .other, .atom .other])) (.atom .nil), .atom .other]))

/-- The `RETURN-FROM` forms of a piece of code, with their names. -/
abbrev Returns := List (String × Node)

mutual

/-- `p1` on the forms. An exit without a target, an error of the compiler, stays in the code. -/
def p1 : Form → Node × Returns
  | .atom a => (.atom a, [])
  | .setq value =>
    let (v, rs) := p1 value
    (.setq v, rs)
  | .cond test consequent alternate =>
    let (t, rs) := p1 test
    let (a, rs₁) := p1 consequent
    let (b, rs₂) := p1 alternate
    if test.isUnsafe then
      if test.leaves then (t, rs)
      else
        -- `(let ((var test)) (if var consequent alternate))`
        (.letNode (.ofList [t]) (.ofList [.cond (.atom .other) a b]), rs ++ rs₁ ++ rs₂)
    else (.cond t a b, rs ++ rs₁ ++ rs₂)
  | .progn body =>
    let (b, rs) := p1Body body
    (.progn b, rs)
  | .letForm initforms body =>
    let (i, rs₁) := p1Body initforms
    let (b, rs₂) := p1Body body
    (.letNode i b, rs₁ ++ rs₂)
  | .block name body =>
    let (b, rs) := p1Body body
    (.block name (.ofList ((rs.filter (·.1 = name)).map Prod.snd)) b, rs.filter (·.1 ≠ name))
  | .returnFrom name result =>
    let (r, rs) := p1 result
    match result with
    -- `maybe-rewrite-return-from`
    | .returnFrom _ _ => (r, rs)
    | _ => (.returnFrom name r, (name, .returnFrom name r) :: rs)
  | .tagbody items =>
    let (is, rs) := p1Items items true
    (.tagbody is, rs)
  | .go tag => (.go tag, [])
  | .the check expr =>
    let (e, rs) := p1 expr
    (theNode expr.isUnsafe check e, rs)
  | .call op args =>
    let (as, rs) := p1Body args
    (callNode args.isUnsafe op as, rs)

def p1Body : Forms → Nodes × Returns
  | .nil => (.nil, [])
  | .cons first rest =>
    let (f, rs₁) := p1 first
    let (r, rs₂) := p1Body rest
    (.cons f r, rs₁ ++ rs₂)

/-- The loop of `p1-tagbody`. Subforms after an exit are dead up to the next tag. -/
def p1Items : Items → Bool → NodeItems × Returns
  | .nil, _ => (.nil, [])
  | .tag name rest, _ =>
    let (r, rs) := p1Items rest true
    (.tag name r, rs)
  | .form form rest, live =>
    if live then
      let (f, rs₁) := p1 form
      let (r, rs₂) := p1Items rest (!form.leaves)
      (.form f r, rs₁ ++ rs₂)
    else p1Items rest false

end

/-! ## Single-valued forms -/

mutual

/-- `single-valued-p`. The `block-form` of a `TAGBODY` is never set, so that `unsafe-p` does not
find an exit in it. -/
def singleValuedP : Node → Bool
  | .atom _ => true
  | .setq _ => true
  | .cond _ consequent alternate => singleValuedP consequent && singleValuedP alternate
  | .progn body => lastSingleValuedP body
  | .letNode _ body => lastSingleValuedP body
  | .block _ returns body => everySingleValuedP returns && lastSingleValuedP body
  | .returnFrom _ result => singleValuedP result
  | .tagbody _ => true
  | .go _ => true
  | .trulyThe expr => singleValuedP expr
  | .call op _ => op.single

/-- `single-valued-p` of the last form of a body. -/
def lastSingleValuedP : Nodes → Bool
  | .nil => true
  | .cons first .nil => singleValuedP first
  | .cons _ (.cons second rest) => lastSingleValuedP (.cons second rest)

def everySingleValuedP : Nodes → Bool
  | .nil => true
  | .cons first rest => singleValuedP first && everySingleValuedP rest

end

/-- The subforms of a `TAGBODY` are all single-valued. -/
def NodeItems.singleValued : NodeItems → Bool
  | .nil => true
  | .tag _ rest => rest.singleValued
  | .form node rest => singleValuedP node && rest.singleValued

def NodeItems.tags : NodeItems → List String
  | .nil => []
  | .tag name rest => name :: rest.tags
  | .form _ rest => rest.tags

/-! ## The second pass -/

inductive Instr
  /-- A constant or a variable is loaded. -/
  | load (a : Atom)
  /-- `emit-clear-values`. -/
  | clear
  | call (op : Op)
  /-- A `GO` is executed; `clears` says that its `TAGBODY` clears the values at its end. -/
  | go (clears : Bool)

inductive Label
  | exit (name : String)
  | tag (name : String)
  deriving DecidableEq

abbrev Emitted := Code Instr Label

/-- `emit-clear-values` when some form before is not single-valued. -/
def emitClearWhen (must : Bool) : Emitted := if must then .instr .clear else .skip

/-- The code of an `IF` whose test is not constant. -/
def ifCode (test : Emitted) (single : Bool) (consequent alternate : Emitted) : Emitted :=
  .seq test (.seq (emitClearWhen (!single)) (.branch consequent alternate))

/-- The tags in scope, with whether their `TAGBODY` clears the values at its end. -/
def pushTags (items : NodeItems) (clears : String → Bool) (tag : String) : Bool :=
  if tag ∈ items.tags then !items.singleValued else clears tag

section P2

-- `use-fast-call-p`: the caller clears the values, not the runtime
variable (fast : Bool)

mutual

/-- `p2` on the forms. The target is a register or none. -/
def p2 : Node → (String → Bool) → Bool → Emitted
  | .atom a, _, target => if target then .instr (.load a) else .skip
  | .setq value, clears, _ =>
    .seq (p2 value clears true) (emitClearWhen (!singleValuedP value))
  | .cond test consequent alternate, clears, target =>
    match test with
    | .atom .t => p2 consequent clears target
    | .atom .nil => p2 alternate clears target
    | .call op (.cons arg .nil) =>
      if op.negates then
        -- `p2-if-not`
        match arg with
        | .atom .t => p2 alternate clears target
        | .atom .nil => p2 consequent clears target
        | arg =>
          ifCode (p2 arg clears true) (singleValuedP arg) (p2 alternate clears target)
            (p2 consequent clears target)
      else
        ifCode (p2 (.call op (.cons arg .nil)) clears true) op.single
          (p2 consequent clears target) (p2 alternate clears target)
    | test =>
      ifCode (p2 test clears true) (singleValuedP test) (p2 consequent clears target)
        (p2 alternate clears target)
  | .progn body, clears, target => p2PrognBody body false clears target
  | .letNode initforms body, clears, target =>
    .seq (p2Args initforms clears)
      (.seq (emitClearWhen (!everySingleValuedP initforms)) (p2PrognBody body false clears target))
  | .block name _ body, clears, _ => .label (p2PrognBody body false clears true) (.exit name)
  | .returnFrom name result, clears, _ =>
    .seq (.instr .clear) (.seq (p2 result clears true) (.jmp (.exit name)))
  | .tagbody items, clears, target =>
    .seq (.sections (p2Items items (pushTags items clears)))
      (.seq (emitClearWhen (!items.singleValued))
        (if target then .instr (.load .nil) else .skip))
  | .go tag, clears, _ => .seq (.instr (.go (clears tag))) (.jmp (.tag tag))
  | .trulyThe expr, clears, target => p2 expr clears target
  | .call op args, clears, _ =>
    .seq (p2Args args clears)
      (.seq (emitClearWhen (!fast || !everySingleValuedP args)) (.instr (.call op)))

def p2PrognBody : Nodes → Bool → (String → Bool) → Bool → Emitted
  | .nil, must, _, target =>
    .seq (emitClearWhen must) (if target then .instr (.load .nil) else .skip)
  | .cons first .nil, must, clears, target =>
    .seq (emitClearWhen must) (p2 first clears target)
  | .cons first (.cons second rest), must, clears, target =>
    .seq (p2 first clears false)
      (p2PrognBody (.cons second rest) (must || !singleValuedP first) clears target)

/-- The arguments of a call, or the initforms of a `LET`. -/
def p2Args : Nodes → (String → Bool) → Emitted
  | .nil, _ => .skip
  | .cons first rest, clears => .seq (p2 first clears true) (p2Args rest clears)

/-- `p2-tagbody-1`. -/
def p2Items : NodeItems → (String → Bool) → Sections Instr Label
  | .nil, _ => .nil
  | .tag name rest, clears => .label (.tag name) (p2Items rest clears)
  | .form node rest, clears => .code (p2 node clears false) (p2Items rest clears)

end

end P2

/-- The final form of a body. -/
def Nodes.last : Nodes → Node
  | .nil => .atom .nil
  | .cons first .nil => first
  | .cons _ (.cons second rest) => (Nodes.cons second rest).last

/-! ## The machine -/

/-- The register of the primary value, and the buffer; `NIL` is 0. The values of variables and the
results of functions come from `inputs`. -/
structure State where
  rax : ℕ
  /-- `none` when the buffer is cleared. -/
  values : Option (List ℕ)
  inputs : ℕ → ℕ
  time : ℕ
  /-- For each executed `GO`, whether its `TAGBODY` clears the values or they are cleared. -/
  gos : List Bool

/-- The values a form returns. -/
def State.results (s : State) : List ℕ := s.values.getD [s.rax]

/-- The value of an atom, and the number of inputs it takes. -/
def Atom.value (inputs : ℕ → ℕ) (time : ℕ) : Atom → ℕ
  | .nil => 0
  | .t => 1
  | .other => inputs time

/-- A function of several values sets the buffer or clears it. One that returns one value at most
clears it. -/
def callValues (op : Op) (s : State) : Option (List ℕ) :=
  let n := s.inputs (s.time + 1)
  if op.single then if n = 0 then none else s.values
  else if n = 0 then none
    else some ((List.range (n - 1)).map fun i => s.inputs (s.time + 2 + i))

def exec : Instr → State → State
  | .load a, s => { s with rax := a.value s.inputs s.time, time := s.time + 1 }
  | .clear, s => { s with values := none }
  | .call op, s =>
    { s with
      rax := s.inputs s.time
      values := callValues op s
      time := s.time + 2 + s.inputs (s.time + 1) }
  | .go clears, s => { s with gos := (clears || s.values.isNone) :: s.gos }

def machine : Machine Instr State where
  exec := exec
  test s := (s.rax ≠ 0, s)

end Xcl.MultipleValues
