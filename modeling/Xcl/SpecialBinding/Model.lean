import Xcl.Lib.Code

/-!
# Special bindings in compiled functions

The forms that bind special variables or leave such forms by a local exit, both passes of the
compiler over them, and the machine that runs the code. A thread keeps its special bindings on a
stack; the compiled code saves the depth of the stack and unwinds to it.

* `Form`, `Bindings`, `Items`: the forms;
* `Node`, `p1`: the first pass, which decides where the depth is saved.
-/

namespace Xcl.SpecialBinding

open Structured

/-! ## Forms -/

mutual

inductive Form
  /-- A constant or a variable. -/
  | atom
  | seq (first second : Form)
  | cond (test first second : Form)
  /-- `LET` and `LET*`. -/
  | letForm (star : Bool) (vars : Bindings) (body : Form)
  | multipleValueBind (specials : List Bool) (values body : Form)
  | progv (symbols values body : Form)
  | block (name : String) (body : Form)
  | tagbody (items : Items)
  | go (tag : String)
  | returnFrom (name : String) (result : Form)

/-- The variables of a `LET` and their initforms. -/
inductive Bindings
  | nil
  | cons (special : Bool) (initform : Form) (rest : Bindings)

/-- The tags and forms of a `TAGBODY`. -/
inductive Items
  | nil
  | tag (name : String) (rest : Items)
  | form (form : Form) (rest : Items)

end

/-! ## The first pass -/

mutual

/-- Forms after the first pass. The blocks are numbered, and a `BLOCK` knows whether it saves the
depth of the stack (`block-last-special-binding-var`). -/
inductive Node
  | atom
  | seq (first second : Node)
  | cond (test first second : Node)
  | letNode (id : ℕ) (star : Bool) (vars : NodeBindings) (body : Node)
  | multipleValueBind (id : ℕ) (specials : List Bool) (values body : Node)
  | progv (id : ℕ) (symbols values body : Node)
  | block (id : ℕ) (name : String) (saves : Bool) (body : Node)
  | tagbody (id : ℕ) (items : NodeItems)
  | go (tag : String)
  | returnFrom (name : String) (result : Node)

inductive NodeBindings
  | nil
  | cons (special : Bool) (initform : Node) (rest : NodeBindings)

inductive NodeItems
  | nil
  | tag (name : String) (rest : NodeItems)
  | form (node : Node) (rest : NodeItems)

end

/-- Some of the variables is special. -/
def Bindings.anySpecial : Bindings → Bool
  | .nil => false
  | .cons special _ rest => special || rest.anySpecial

def Bindings.length : Bindings → ℕ
  | .nil => 0
  | .cons _ _ rest => rest.length + 1

/-- All initforms are constants. -/
def Bindings.allConstant : Bindings → Bool
  | .nil => true
  | .cons _ .atom rest => rest.allConstant
  | .cons _ _ _ => false

def NodeBindings.anySpecial : NodeBindings → Bool
  | .nil => false
  | .cons special _ rest => special || rest.anySpecial

mutual

/-- `unsafe-p`: the form has a local exit. -/
def Form.isUnsafe : Form → Bool
  | .atom => false
  | .seq first second => first.isUnsafe || second.isUnsafe
  | .cond test first second => test.isUnsafe || first.isUnsafe || second.isUnsafe
  | .letForm _ vars body => vars.isUnsafe || body.isUnsafe
  | .multipleValueBind _ values body => values.isUnsafe || body.isUnsafe
  | .progv symbols values body => symbols.isUnsafe || values.isUnsafe || body.isUnsafe
  | .block _ body => body.isUnsafe
  | .tagbody items => items.isUnsafe
  | .go _ => true
  | .returnFrom _ _ => true

def Bindings.isUnsafe : Bindings → Bool
  | .nil => false
  | .cons _ initform rest => initform.isUnsafe || rest.isUnsafe

def Items.isUnsafe : Items → Bool
  | .nil => false
  | .tag _ rest => rest.isUnsafe
  | .form form rest => form.isUnsafe || rest.isUnsafe

end

/-- The state of the first pass: the next number, whether `*all-variables*` has a special variable,
and the blocks with `block-return-p`. -/
structure Pass1 where
  next : ℕ
  special : Bool
  returned : List ℕ

def findBlock (name : String) (visible : List (String × ℕ)) : Option ℕ :=
  (visible.find? (·.1 == name)).map Prod.snd

/-- The subform after which the subforms up to the next tag are dead. -/
def Form.leaves : Form → Bool
  | .go _ => true
  | .returnFrom _ _ => true
  | _ => false

mutual

/-- `p1` on the forms. -/
def p1 : Form → List (String × ℕ) → Pass1 → Node × Pass1
  | .atom, _, st => (.atom, st)
  | .seq first second, visible, st =>
    let (a, st) := p1 first visible st
    let (b, st) := p1 second visible st
    (.seq a b, st)
  | .cond test first second, visible, st =>
    let (t, st) := p1 test visible st
    let (a, st) := p1 first visible st
    let (b, st) := p1 second visible st
    (.cond t a b, st)
  | .letForm star vars body, visible, st =>
    let id := st.next
    -- convert to `LET*` if possible
    let star := star || vars.length ≤ 1 || vars.allConstant
    let (vs, st) := p1Vars vars visible { st with next := id + 1 }
    let (b, st) := p1 body visible { st with special := st.special || vars.anySpecial }
    (.letNode id star vs b, st)
  | .multipleValueBind specials values body, visible, st =>
    match specials with
    | [special] =>
      let id := st.next
      let (v, st) := p1 values visible { st with next := id + 1 }
      let (b, st) := p1 body visible { st with special := st.special || special }
      (.letNode id true (.cons special v .nil) b, st)
    | specials =>
      let id := st.next
      let (v, st) := p1 values visible { st with next := id + 1 }
      let (b, st) := p1 body visible { st with special := st.special || specials.contains true }
      (.multipleValueBind id specials v b, st)
  | .progv symbols values body, visible, st =>
    let id := st.next
    let (s, st) := p1 symbols visible { st with next := id + 2 }
    let (v, st) := p1 values visible st
    let (b, st) := p1 body visible st
    -- `maybe-rewrite-progv`
    if symbols.isUnsafe || values.isUnsafe then
      (.letNode id false (.cons false s (.cons false v .nil)) (.progv (id + 1) .atom .atom b), st)
    else (.progv id s v b, st)
  | .block name body, visible, st =>
    let id := st.next
    let (b, st) := p1 body ((name, id) :: visible) { st with next := id + 1 }
    (.block id name (st.returned.contains id && st.special) b, st)
  | .tagbody items, visible, st =>
    let id := st.next
    let (is, st) := p1Items items true visible { st with next := id + 1 }
    (.tagbody id is, st)
  | .go tag, _, st => (.go tag, st)
  | .returnFrom name result, visible, st =>
    -- `maybe-rewrite-return-from`
    match result with
    | .returnFrom name' result' => p1 (.returnFrom name' result') visible st
    | result =>
      let (r, st) := p1 result visible st
      match findBlock name visible with
      | some id => (.returnFrom name r, { st with returned := id :: st.returned })
      | none => (.returnFrom name r, st)

/-- The initforms of `p1-let-vars` and `p1-let*-vars`. -/
def p1Vars : Bindings → List (String × ℕ) → Pass1 → NodeBindings × Pass1
  | .nil, _, st => (.nil, st)
  | .cons special initform rest, visible, st =>
    let (i, st) := p1 initform visible st
    let (r, st) := p1Vars rest visible st
    (.cons special i r, st)

/-- The loop of `p1-tagbody`. -/
def p1Items : Items → Bool → List (String × ℕ) → Pass1 → NodeItems × Pass1
  | .nil, _, _, st => (.nil, st)
  | .tag name rest, _, visible, st =>
    let (r, st) := p1Items rest true visible st
    (.tag name r, st)
  | .form form rest, live, visible, st =>
    if live then
      let (f, st) := p1 form visible st
      let (r, st) := p1Items rest (!form.leaves) visible st
      (.form f r, st)
    else p1Items rest false visible st

end

/-! ## The second pass -/

inductive Kind
  | letBlock
  | multipleValueBind
  | progv
  | block (name : String)
  | tagbody (tags : List String)
  deriving DecidableEq

/-- An enclosing block; `saves` says that it has a `block-last-special-binding-var`. -/
structure Block where
  id : ℕ
  kind : Kind
  saves : Bool
  deriving DecidableEq

/-- The blocks on `*visible-blocks*`: `p2-m-v-b` does not put its block there. -/
def visibleBlocks (context : List Block) : List Block :=
  context.filter fun b => b.kind ≠ .multipleValueBind

def findVisibleBlock (name : String) (context : List Block) : Option Block :=
  (visibleBlocks context).find? fun b => b.kind = .block name

/-- The block of `find-visible-tag`. -/
def findVisibleTag (tag : String) (context : List Block) : Option Block :=
  context.find? fun b => match b.kind with
    | .tagbody tags => tags.contains tag
    | _ => false

/-- The blocks between an exit and its target. -/
def path (target : Block) (context : List Block) : List Block :=
  context.takeWhile (· ≠ target)

/-- The body of the block runs with more bindings than the block was entered with. -/
def Block.binds (b : Block) : Bool :=
  match b.kind with
  | .letBlock => b.saves
  | .multipleValueBind => b.saves
  | .progv => true
  | .block _ => false
  | .tagbody _ => false

/-- A `GO` unwinds the stack when the outermost of the blocks that save its depth is visible. -/
def goUnwinds (target : Block) (context : List Block) : Bool :=
  ((path target context).filter (·.saves)).getLast?.all fun b => b.kind ≠ .multipleValueBind

/-- A `RETURN-FROM` unwinds the stack when its block does so, or when no block on the way binds. -/
def returnUnwinds (target : Block) (context : List Block) : Bool :=
  target.saves || (path target context).all fun b => !b.binds

inductive Instr
  /-- Save the depth of the stack in the variable of a block. -/
  | save (id : ℕ)
  /-- `RT_thread_set_last_special_binding`. -/
  | restore (id : ℕ)
  /-- `RT_thread_bind_special`. -/
  | bind
  /-- `RT_progv_bind_vars`. -/
  | bindVars
  /-- A `BLOCK` or `TAGBODY` is entered. -/
  | enter (id : ℕ)
  /-- Control arrives at a tag or after a block. -/
  | arrive (id : ℕ)
  | exit (unwinds : Bool)

inductive Label
  | exit (id : ℕ)
  | tag (id : ℕ) (name : String)
  deriving DecidableEq

abbrev Emitted := Code Instr Label

/-- An instruction that is only emitted for a block that saves the depth. -/
def emitWhen (b : Bool) (i : Instr) : Emitted := if b then .instr i else .skip

/-- The calls that `p2-go` emits for the blocks on its way. -/
def emitRestores : List Block → Emitted
  | [] => .skip
  | b :: blocks =>
    match b.kind with
    | .tagbody _ => emitRestores blocks
    | _ => .seq (emitWhen b.saves (.restore b.id)) (emitRestores blocks)

/-- `p2-go`. A tag that is not visible is an error of the compiler. -/
def p2Go (tag : String) (context : List Block) : Emitted :=
  match findVisibleTag tag context with
  | none => .skip
  | some target =>
    .seq (emitRestores ((visibleBlocks context).takeWhile (· ≠ target)))
      (.seq (.instr (.exit (goUnwinds target context))) (.jmp (.tag target.id tag)))

/-- The end of `p2-return-from`, after the result form. -/
def p2ReturnFrom (name : String) (context : List Block) : Emitted :=
  match findVisibleBlock name context with
  | none => .skip
  | some target =>
    .seq (.instr (.exit (returnUnwinds target context))) (.jmp (.exit target.id))

def emitBinds : List Bool → Emitted
  | [] => .skip
  | special :: specials => .seq (emitWhen special .bind) (emitBinds specials)

def NodeBindings.specials : NodeBindings → List Bool
  | .nil => []
  | .cons special _ rest => special :: rest.specials

def NodeItems.tags : NodeItems → List String
  | .nil => []
  | .tag name rest => name :: rest.tags
  | .form _ rest => rest.tags

mutual

/-- `p2` on the forms. -/
def p2 : Node → List Block → Emitted
  | .atom, _ => .skip
  | .seq first second, context => .seq (p2 first context) (p2 second context)
  | .cond test first second, context =>
    .seq (p2 test context) (.branch (p2 first context) (p2 second context))
  | .letNode id star vars body, context =>
    let block : Block := ⟨id, .letBlock, vars.anySpecial⟩
    .seq (emitWhen block.saves (.save id))
      (.seq
        (if star then p2LetStarVars vars (block :: context)
          else .seq (p2LetVars vars (block :: context)) (emitBinds vars.specials))
        (.seq (p2 body (block :: context)) (emitWhen block.saves (.restore id))))
  | .multipleValueBind id specials values body, context =>
    let block : Block := ⟨id, .multipleValueBind, specials.contains true⟩
    .seq (emitWhen block.saves (.save id))
      (.seq (p2 values context)
        (.seq (emitBinds specials)
          (.seq (p2 body (block :: context)) (emitWhen block.saves (.restore id)))))
  | .progv id symbols values body, context =>
    let block : Block := ⟨id, .progv, true⟩
    .seq (.instr (.save id))
      (.seq (.seq (p2 symbols (block :: context)) (p2 values (block :: context)))
        (.seq (.instr .bindVars) (.seq (p2 body (block :: context)) (.instr (.restore id)))))
  | .block id name saves body, context =>
    .seq (.instr (.enter id))
      (.seq (emitWhen saves (.save id))
        (.seq (.label (p2 body (⟨id, .block name, saves⟩ :: context)) (.exit id))
          (.seq (emitWhen saves (.restore id)) (.instr (.arrive id)))))
  | .tagbody id items, context =>
    .seq (.instr (.enter id))
      (.sections (p2Items id items (⟨id, .tagbody items.tags, false⟩ :: context)))
  | .go tag, context => p2Go tag context
  | .returnFrom name result, context => .seq (p2 result context) (p2ReturnFrom name context)

/-- The initforms of `p2-let-vars`. -/
def p2LetVars : NodeBindings → List Block → Emitted
  | .nil, _ => .skip
  | .cons _ initform rest, context => .seq (p2 initform context) (p2LetVars rest context)

/-- `p2-let*-vars`. -/
def p2LetStarVars : NodeBindings → List Block → Emitted
  | .nil, _ => .skip
  | .cons special initform rest, context =>
    .seq (p2 initform context) (.seq (emitWhen special .bind) (p2LetStarVars rest context))

/-- `p2-tagbody-1`. -/
def p2Items : ℕ → NodeItems → List Block → Sections Instr Label
  | _, .nil, _ => .nil
  | id, .tag name rest, context =>
    .label (.tag id name) (.code (.instr (.arrive id)) (p2Items id rest context))
  | id, .form node rest, context => .code (p2 node context) (p2Items id rest context)

end

/-- The code of a function. `special` says that one of its parameters is special. -/
def compileForm (special : Bool) (form : Form) : Emitted := p2 (p1 form [] ⟨0, special, []⟩).1 []

/-! ## The machine -/

/-- The stack of special bindings, the saved depths, and the records. The outcome of a test and the
values of bindings come from `inputs`. -/
structure State where
  stack : List ℕ
  depth : ℕ → ℕ
  inputs : ℕ → ℕ
  time : ℕ
  entry : ℕ → List ℕ
  arrivals : List (List ℕ × List ℕ)
  /-- Whether the exits unwind. -/
  exits : List Bool

/-- `Thread::unbind_to`. -/
def unbindTo (n : ℕ) (stack : List ℕ) : List ℕ := stack.drop (stack.length - n)

def exec : Instr → State → State
  | .save id, s => { s with depth := Function.update s.depth id s.stack.length }
  | .restore id, s => { s with stack := unbindTo (s.depth id) s.stack }
  | .bind, s => { s with stack := s.inputs s.time :: s.stack, time := s.time + 1 }
  | .bindVars, s =>
    let n := s.inputs s.time
    { s with
      stack := (List.range n).map (fun i => s.inputs (s.time + 1 + i)) ++ s.stack
      time := s.time + 1 + n }
  | .enter id, s => { s with entry := Function.update s.entry id s.stack }
  | .arrive id, s => { s with arrivals := (s.entry id, s.stack) :: s.arrivals }
  | .exit unwinds, s => { s with exits := unwinds :: s.exits }

def machine : Machine Instr State where
  exec := exec
  test s := (s.inputs s.time ≠ 0, { s with time := s.time + 1 })

def start (stack : List ℕ) (inputs : ℕ → ℕ) : State where
  stack := stack
  depth := fun _ => 0
  inputs := inputs
  time := 0
  entry := fun _ => []
  arrivals := []
  exits := []

/-- The state after a bounded run of the code of a function. -/
def runFunction (n : ℕ) (special : Bool) (form : Form) (stack : List ℕ) (inputs : ℕ → ℕ) : State :=
  (run machine n (compileForm special form) (start stack inputs)).2

end Xcl.SpecialBinding
