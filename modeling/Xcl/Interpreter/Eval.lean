import Xcl.Interpreter.Closure

/-!
# The interpreter

An evaluation that gets to a SETJMP is the computation that catches the jumps to the frame.
-/

namespace Xcl.Interpreter

open Xcl.Exits Comp

/-! ## Variables -/

def evalSymbol (name : Symbol) (env : ℕ) : Interp Value := do
  let s ← get
  let e := s.heap.environments env
  let value :=
    if s.specialVariable name || e.isDeclaredSpecial name then s.threadLocalValue name
    else (e.lookup s.heap name).or (s.threadLocalValue name)
  match value.or (s.symbolValue name) with
  | some v => return v
  | none => exit (.error (.unboundVariable name))

def clSetq (ev : Form → ℕ → Interp Value) (name : Symbol) (form : Form) (env : ℕ) :
    Interp Value := do
  let s ← get
  let e := s.heap.environments env
  let value ← ev form env
  if s.specialVariable name || e.isDeclaredSpecial name then setSymbolValue name value
  else
    match (e.getBinding name).bind (·.cell) with
    | some cell => setCell cell value
    | none => modify fun s =>
        { s with symbolValue := Function.update s.symbolValue name (some value) }
  clearValues
  return value

def clIf (ev : Form → ℕ → Interp Value) (test consequent : Form) (alternative : Option Form)
    (env : ℕ) : Interp Value := do
  let value ← ev test env
  if value ≠ .nil then ev consequent env
  else
    match alternative with
    | some form => ev form env
    | none =>
      clearValues
      return .nil

def bindVariable (specials : List Symbol) (ext : ℕ) (name : Symbol) (v : Value) :
    Interp Unit := do
  let s ← get
  if specials.contains name then
    bindSpecial name v
    declareSpecial ext name
  else if s.specialVariable name then bindSpecial name v
  else bindLexical ext name v

def evalInitform (ev : Form → ℕ → Interp Value) (env : ℕ) : Option Form → Interp Value
  | some form => ev form env
  | none => return .nil

def evalInitforms (ev : Form → ℕ → Interp Value) (env : ℕ) :
    List (Symbol × Option Form) → Interp (List Value)
  | [] => return []
  | (_, initform) :: bindings => do
    let v ← evalInitform ev env initform
    let vals ← evalInitforms ev env bindings
    return v :: vals

def bindVariables (specials : List Symbol) (ext : ℕ) :
    List (Symbol × Option Form) → List Value → Interp Unit
  | (name, _) :: bindings, v :: vals => do
    bindVariable specials ext name v
    bindVariables specials ext bindings vals
  | _, _ => return ()

def clLet (ev : Form → ℕ → Interp Value) (bindings : List (Symbol × Option Form))
    (specials : List Symbol) (body : List Form) (env : ℕ) : Interp Value := do
  let s ← get
  let ext ← newEnvironment env
  let vals ← evalInitforms ev env bindings
  bindVariables specials ext bindings vals
  declareSpecials ext specials
  let result ← Closure.progn ev ext body .nil
  unbindTo s.bindingStack.length
  return result

def bindSequentially (ev : Form → ℕ → Interp Value) (specials : List Symbol) (ext : ℕ) :
    List (Symbol × Option Form) → Interp Unit
  | [] => return ()
  | (name, initform) :: bindings => do
    let v ← evalInitform ev ext initform
    bindVariable specials ext name v
    bindSequentially ev specials ext bindings

def clLetStar (ev : Form → ℕ → Interp Value) (bindings : List (Symbol × Option Form))
    (specials : List Symbol) (body : List Form) (env : ℕ) : Interp Value := do
  let s ← get
  let ext ← newEnvironment env
  bindSequentially ev specials ext bindings
  declareSpecials ext specials
  let result ← Closure.progn ev ext body .nil
  unbindTo s.bindingStack.length
  return result

/-! ## Calls -/

def newClosure (lambdaList : List Parameter) (specials : List Symbol) (body : List Form)
    (env : ℕ) : Interp Closure :=
  match initCommon lambdaList specials body env with
  | .ok c => do
    clearValues
    return c
  | .error e => exit (.error e)

def clLambda (lambdaList : List Parameter) (specials : List Symbol) (body : List Form)
    (env : ℕ) : Interp Value := do
  let c ← newClosure lambdaList specials body env
  makeObject (.closure c)

def evalArgs (ev : Form → ℕ → Interp Value) (env : ℕ) : List Form → Interp (List Value)
  | [] => return []
  | form :: forms => do
    let v ← ev form env
    let vals ← evalArgs ev env forms
    return v :: vals

/-- `eval_call` of a lambda expression. For a fixed arity only six arguments are evaluated. -/
def evalCall (ev : Form → ℕ → Interp Value) (c : Closure) (args : List Form) (env : ℕ) :
    Interp Value := do
  if c.arity.any (· ≤ 6) then
    let vals ← evalArgs ev env (args.take 6)
    if args.length > 6 then exit (.error .wrongNumberOfArguments)
    else
      clearValues
      c.execute ev vals
  else
    let vals ← evalArgs ev env args
    clearValues
    c.executeArray ev vals

def clFuncall (ev : Form → ℕ → Interp Value) (function : Form) (args : List Form) (env : ℕ) :
    Interp Value := do
  let f ← ev function env
  let vals ← evalArgs ev env args
  clearValues
  if vals.length + 1 > callArgumentsLimit then exit (.error .wrongNumberOfArguments)
  else
    let s ← get
    match f with
    | .object address =>
      match s.heap.objects address with
      | some (.closure c) =>
        match c.arity with
        | some arity =>
          if vals.length ≠ arity then exit (.error .wrongNumberOfArguments)
          else if vals.length ≤ 6 then c.execute ev vals
          else c.executeArray ev vals
        | none =>
          if vals.length < c.minargs ∨ vals.length > c.maxargs then
            exit (.error .wrongNumberOfArguments)
          else c.executeArray ev vals
      | _ => exit (.error .notAFunction)
    | _ => exit (.error .notAFunction)

def clValues (ev : Form → ℕ → Interp Value) (args : List Form) (env : ℕ) : Interp Value := do
  let vals ← evalArgs ev env args
  clearValues
  if vals.length ≤ multipleValuesLimit then setValuesArray vals
  else exit (.error .tooManyValues)

/-! ## Unwinding -/

/-- A form is removed before it is evaluated. -/
def popCleanupForm (uwp : ℕ) (forms : List Form) : Interp Unit :=
  changeControl (fun c => c.setFrame uwp ((c.frames uwp).setCleanupForms forms)) .change

def runCleanupForms (ev : Form → ℕ → Interp Value) (released : Bool) (uwp : ℕ) :
    ℕ → Interp Unit
  | 0 => exit .timeout
  | n + 1 => do
    let s ← get
    match (s.control.frames uwp).cleanupForms with
    | [] => return ()
    | form :: forms =>
      popCleanupForm uwp forms
      record (.cleanup released)
      let _ ← ev form (s.control.frames uwp).env
      runCleanupForms ev released uwp n

/-- One frame of an unwinding; `released` says whether a frame has been put into the pool. -/
def passFrame (ev : Form → ℕ → Interp Value) (n f : ℕ) (released : Bool) : Interp Bool := do
  let s ← get
  if (s.control.frames f).type = .unwindProtect then
    runCleanupForms ev released f n
    return released
  else if s.control.pool.length < framePoolSize - 1 then
    changeControl (·.releaseFrame f) (.release f)
    return true
  else return released

/-- The loop of `RT_unwind_to`. The next frame is known before cleanup forms are evaluated. -/
def unwindLoop (ev : Form → ℕ → Interp Value) (target : ℕ) :
    ℕ → Option ℕ → Bool → Interp Unit
  | 0, _, _ => exit .timeout
  | _ + 1, none, _ => return ()
  | n + 1, some f, released =>
    if f = target then return ()
    else do
      let s ← get
      let released ← passFrame ev n f released
      unwindLoop ev target n (s.control.frames f).next released

def restoreFrameContext (f : ℕ) : Interp Unit := do
  let s ← get
  let frame := s.control.frames f
  unbindTo frame.lastSpecialBinding
  if frame.type = .tagbody then changeControl (·.setLastControlFrame (some f)) .change
  else
    restoreLastControlFrame f
    setLastTag frame.lastTag

def rtUnwindTo (ev : Form → ℕ → Interp Value) (n : ℕ) (target : ℕ) : Interp Unit := do
  record (.unwind target)
  let s ← get
  unwindLoop ev target n s.control.lastControlFrame false
  setValues s.values
  restoreFrameContext target

/-- What a caught RETURN-FROM or THROW returns. -/
def deliveredValue : Interp Value := do
  let s ← get
  if s.values.length = 0 then return .nil
  else
    let result := s.values.nth 0
    if s.values.length = 1 then clearValues
    return result

/-- The exit has arrived with the values that it delivers. -/
def recordArrival (activation : ℕ) (origin : Origin) (result : Value) : Interp Unit := do
  let s ← get
  record (.arrive activation none origin (s.values.denote result))

/-! ## BLOCK -/

def leaveBlock (f : ℕ) : Interp Unit := do
  restoreLastControlFrame f
  releaseFrame f

def clBlock (ev : Form → ℕ → Interp Value) (name : Symbol) (body : List Form) (env : ℕ) :
    Interp Value := do
  let (f, activation) ← addBlock name
  let result ← catchExit
    (do
      let ext ← newEnvironment env
      changeEnvironment ext fun e => { e with blocks := (name, activation) :: e.blocks }
      Closure.progn ev ext body .nil)
    fun
      | .jump frame _ origin =>
        if frame = f then some do
          let result ← deliveredValue
          recordArrival activation origin result
          return result
        else none
      | _ => none
  leaveBlock f
  return result

/-- The activation that a name stands for in an environment. -/
def Environment.goal {α : Type} [DecidableEq α] (name : α) (visible : List (α × ℕ)) : Option ℕ :=
  (visible.find? fun b => b.1 = name).map (·.2)

def findBlock (name : Symbol) (c : Control) : Option (Option ℕ) :=
  c.find fun frame => frame.type = .block && frame.blockName = some name

def rtReturnFrom (ev : Form → ℕ → Interp Value) (n : ℕ) (name : Symbol) (goal : Option ℕ)
    (result : Value) : Interp Value := do
  record (.returnFrom name goal)
  let s ← get
  match findBlock name s.control with
  | none => exit .timeout
  | some none => exit (.error (.noBlock name))
  | some (some f) =>
    if s.values.length < 0 then setValue result
    rtUnwindTo ev n f
    exit (.jump f 1 ⟨goal, none, s.values.denote result⟩)

def clReturnFrom (ev : Form → ℕ → Interp Value) (n : ℕ) (name : Symbol) (result : Option Form)
    (env : ℕ) : Interp Value := do
  let result ← evalInitform ev env result
  let s ← get
  rtReturnFrom ev n name (Environment.goal name (s.heap.environments env).blocks) result

/-! ## CATCH -/

def findCatchFrame (tag : Value) (c : Control) : Option (Option ℕ) :=
  c.find fun frame => frame.type = .catch && frame.catchTag = some tag

def rtThrow (ev : Form → ℕ → Interp Value) (n : ℕ) (tag result : Value) : Interp Value := do
  let s ← get
  match findCatchFrame tag s.control with
  | none => exit .timeout
  | some none => exit (.error (.nonexistentTag tag))
  | some (some f) =>
    if s.values.length < 0 then setValue result
    rtUnwindTo ev n f
    exit (.jump f 1 ⟨some (s.control.frames f).activation, none, s.values.denote result⟩)

def clThrow (ev : Form → ℕ → Interp Value) (n : ℕ) (tag result : Form) (env : ℕ) :
    Interp Value := do
  let tag ← ev tag env
  let result ← ev result env
  rtThrow ev n tag result

def rtCaughtThrow (f : ℕ) : Interp Value := do
  let s ← get
  restoreLastControlFrame f
  setLastTag (s.control.frames f).lastTag
  releaseFrame f
  deliveredValue

def clCatch (ev : Form → ℕ → Interp Value) (tag : Form) (body : List Form) (env : ℕ) :
    Interp Value := do
  let tag ← ev tag env
  let f ← addCatchFrame tag
  let s ← get
  catchExit
    (do
      let ext ← newEnvironment env
      let result ← Closure.progn ev ext body .nil
      restoreLastControlFrame f
      releaseFrame f
      return result)
    fun
      | .jump frame _ origin =>
        if frame = f then some do
          let result ← rtCaughtThrow f
          recordArrival (s.control.frames f).activation origin result
          return result
        else none
      | _ => none

/-! ## TAGBODY -/

/-- The tags of a body, the last one first. -/
def addTags (tagbody activation : ℕ) : List Item → ℕ → List Tag → List Tag
  | [], _, tags => tags
  | .tag name :: body, index, tags =>
    addTags tagbody activation body (index + 1) (⟨name, tagbody, body, index, activation⟩ :: tags)
  | .form _ :: body, index, tags => addTags tagbody activation body index tags

def Item.names : List Item → List TagName
  | [] => []
  | .tag name :: body => name :: Item.names body
  | .form _ :: body => Item.names body

def findTag (name : TagName) (tags : List Tag) : Option Tag := tags.find? fun tag => tag.name = name

def goToVisibleTag (ev : Form → ℕ → Interp Value) (n : ℕ) (name : TagName) (goal : Option ℕ)
    (tag : Tag) : Interp Value := do
  clearValues
  rtUnwindTo ev n tag.tagbody
  exit (.jump tag.tagbody tag.index ⟨goal, some name, []⟩)

def visibleTag (name : TagName) (env : ℕ) : Interp (Option ℕ × Tag) := do
  let s ← get
  let goal := Environment.goal name (s.heap.environments env).tags
  record (.go name goal s.lastTag)
  match findTag name s.lastTag with
  | none => exit (.error (.noTag name))
  | some tag => return (goal, tag)

def clGo (ev : Form → ℕ → Interp Value) (n : ℕ) (name : TagName) (env : ℕ) : Interp Value := do
  let (goal, tag) ← visibleTag name env
  goToVisibleTag ev n name goal tag

def tagbodyRun (ev : Form → ℕ → Interp Value) (f activation ext : ℕ) : ℕ → List Item → Interp Unit
  | 0, _ => exit .timeout
  | _ + 1, [] => return ()
  | n + 1, .tag _ :: remaining => tagbodyRun ev f activation ext n remaining
  | n + 1, .form (.go name) :: remaining => do
    let (goal, tag) ← visibleTag name ext
    if tag.tagbody = f then
      record (.arrive activation (some tag.name) ⟨goal, some name, []⟩ [])
      tagbodyRun ev f activation ext n tag.continuation
    else
      let _ ← goToVisibleTag ev n name goal tag
      tagbodyRun ev f activation ext n remaining
  | n + 1, .form form :: remaining => do
    let _ ← ev form ext
    tagbodyRun ev f activation ext n remaining

/-- The SETJMP is passed again at each jump to the TAGBODY. -/
def tagbodyLoop (ev : Form → ℕ → Interp Value) (f activation ext : ℕ) (lastTag : List Tag) :
    ℕ → List Item → Interp Unit
  | 0, _ => exit .timeout
  | n + 1, remaining =>
    catchExit (tagbodyRun ev f activation ext n remaining)
      fun
        | .jump frame index origin =>
          if frame = f then some do
            setLastTag lastTag
            match lastTag.find? fun tag => tag.tagbody = f && tag.index = index with
            | some tag => do
              record (.arrive activation (some tag.name) origin [])
              tagbodyLoop ev f activation ext lastTag n tag.continuation
            | none => exit .undefined
          else none
        | _ => none

def clTagbody (ev : Form → ℕ → Interp Value) (n : ℕ) (body : List Item) (env : ℕ) :
    Interp Value := do
  let ext ← newEnvironment env
  let (f, activation) ← getTagbody
  let s ← get
  let lastTag := addTags f activation body 1 s.lastTag
  setLastTag lastTag
  changeEnvironment ext fun e =>
    { e with tags := (Item.names body).map (·, activation) ++ e.tags }
  tagbodyLoop ev f activation ext lastTag n body
  let s ← get
  setLastTag (s.control.frames f).lastTag
  restoreLastControlFrame f
  releaseFrame f
  clearValues
  return .nil

/-! ## UNWIND-PROTECT -/

def evalAll (ev : Form → ℕ → Interp Value) (env : ℕ) : List Form → Interp Unit
  | [] => return ()
  | form :: forms => do
    let _ ← ev form env
    evalAll ev env forms

def clUnwindProtect (ev : Form → ℕ → Interp Value) (form : Form) (cleanupForms : List Form)
    (env : ℕ) : Interp Value := do
  let f ← addUnwindProtect cleanupForms env
  let result ← ev form env
  let s ← get
  restoreLastControlFrame f
  releaseFrame f
  evalAll ev env cleanupForms
  setValues (copyPrimary s.values result)
  return result

/-! ## Evaluation -/

def eval : ℕ → Form → ℕ → Interp Value
  | 0, _, _ => exit .timeout
  | n + 1, form, env => do
    clearValues
    match form with
    | .const v => return v
    | .var name => evalSymbol name env
    | .setq name form => clSetq (eval n) name form env
    | .progn body => Closure.progn (eval n) env body .nil
    | .cond test consequent alternative => clIf (eval n) test consequent alternative env
    | .let bindings specials body => clLet (eval n) bindings specials body env
    | .letStar bindings specials body => clLetStar (eval n) bindings specials body env
    | .lambda lambdaList specials body => clLambda lambdaList specials body env
    | .call lambdaList specials body args => do
      let c ← newClosure lambdaList specials body env
      evalCall (eval n) c args env
    | .funcall function args => clFuncall (eval n) function args env
    | .values args => clValues (eval n) args env
    | .block name body => clBlock (eval n) name body env
    | .returnFrom name result => clReturnFrom (eval n) n name result env
    | .catch tag body => clCatch (eval n) tag body env
    | .throw tag result => clThrow (eval n) n tag result env
    | .tagbody body => clTagbody (eval n) n body env
    | .go name => clGo (eval n) n name env
    | .unwindProtect form cleanupForms => clUnwindProtect (eval n) form cleanupForms env

end Xcl.Interpreter
