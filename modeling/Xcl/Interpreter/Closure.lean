import Xcl.Interpreter.Thread

/-!
# Interpreted closures

* `initCommon`: a closure is made from its lambda list;
* `Closure.processArgs`: the values of the parameters.

The argument `ev` is `eval`.
-/

namespace Xcl.Interpreter

open Xcl.Exits Comp

def callArgumentsLimit : ℕ := 256

def Symbol.andOptional : Symbol := ⟨"COMMON-LISP", "&OPTIONAL"⟩

def Symbol.andRest : Symbol := ⟨"COMMON-LISP", "&REST"⟩

def Symbol.andKey : Symbol := ⟨"COMMON-LISP", "&KEY"⟩

def Symbol.andAllowOtherKeys : Symbol := ⟨"COMMON-LISP", "&ALLOW-OTHER-KEYS"⟩

def Symbol.andAux : Symbol := ⟨"COMMON-LISP", "&AUX"⟩

def Symbol.intern (s : Symbol) : Symbol := ⟨"KEYWORD", s.name⟩

def Symbol.allowOtherKeys : Symbol := ⟨"KEYWORD", "ALLOW-OTHER-KEYS"⟩

/-! ## Lambda lists -/

inductive ParseState
  | required
  | optional
  | rest
  | keyword
  | aux
  deriving DecidableEq

def processInitform : Form → Option Value
  | .const v => some v
  | _ => none

def parseRequired : List Parameter → Except LispError (List Symbol × ParseState × List Parameter)
  | [] => return ([], .required, [])
  | .list .. :: _ => throw .invalidParameter
  | .symbol s :: tail =>
    if s = .andOptional then return ([], .optional, tail)
    else if s = .andRest then return ([], .rest, tail)
    else if s = .andKey then return ([], .keyword, tail)
    else if s = .andAux then return ([], .aux, tail)
    else do
      let (vars, state, tail) ← parseRequired tail
      return (s :: vars, state, tail)

def parseOptionals :
    List Parameter → Except LispError (List OptionalParameter × ParseState × List Parameter)
  | [] => return ([], .optional, [])
  | .symbol s :: tail =>
    if s = .andRest then return ([], .rest, tail)
    else if s = .andKey then return ([], .keyword, tail)
    else if s = .andAux then return ([], .aux, tail)
    else do
      let (ops, state, tail) ← parseOptionals tail
      return (⟨s, .const .nil, some .nil, none⟩ :: ops, state, tail)
  | .list keyword var initform suppliedP :: tail =>
    if keyword.isSome then throw .invalidParameter
    else do
      let initform := initform.getD (.const .nil)
      let (ops, state, tail) ← parseOptionals tail
      return (⟨var, initform, processInitform initform, suppliedP⟩ :: ops, state, tail)

/-- After the variable only `&KEY` is looked for. -/
def parseRest : List Parameter → Except LispError (Symbol × ParseState × List Parameter)
  | [] => throw .restWithoutVariable
  | .list .. :: _ => throw .invalidParameter
  | .symbol var :: .symbol s :: tail =>
    if s = .andKey then return (var, .keyword, tail) else return (var, .rest, .symbol s :: tail)
  | .symbol var :: tail => return (var, .rest, tail)

def parseKeywords :
    List Parameter → Except LispError (List KeywordParameter × Bool × ParseState × List Parameter)
  | [] => return ([], false, .keyword, [])
  | .symbol s :: tail =>
    if s = .andAllowOtherKeys then do
      let (kps, _, rest) ← parseKeywords tail
      return (kps, true, rest)
    else if s = .andAux then return ([], false, .aux, tail)
    else do
      let (kps, allowOtherKeys, rest) ← parseKeywords tail
      return (⟨s.intern, s, .const .nil, some .nil, none⟩ :: kps, allowOtherKeys, rest)
  | .list keyword var initform suppliedP :: tail => do
    let initform := initform.getD (.const .nil)
    let (kps, allowOtherKeys, rest) ← parseKeywords tail
    return (⟨keyword.getD var.intern, var, initform, processInitform initform, suppliedP⟩ :: kps,
      allowOtherKeys, rest)

def parseAuxvars : List Parameter → Except LispError (List (Symbol × Option Form))
  | [] => return []
  | .symbol s :: tail => do return (s, none) :: (← parseAuxvars tail)
  | .list keyword var initform _ :: tail =>
    if keyword.isSome then throw .invalidParameter
    else do return (var, some (initform.getD (.const .nil))) :: (← parseAuxvars tail)

/-- `Closure::init_common`. -/
def initCommon (lambdaList : List Parameter) (specials : List Symbol) (body : List Form)
    (env : ℕ) : Except LispError Closure := do
  let (required, state, tail) ← parseRequired lambdaList
  let (optionals, state, tail) ←
    if state = .optional then parseOptionals tail else pure ([], state, tail)
  let (restvar, state, tail) ←
    if state = .rest then do
      let (var, state, tail) ← parseRest tail
      pure (some var, state, tail)
    else pure (none, state, tail)
  let keyp := state = .keyword
  let (keywords, allowOtherKeys, state, tail) ←
    if state = .keyword then parseKeywords tail else pure ([], false, state, tail)
  let auxvars ← if state = .aux then parseAuxvars tail else pure []
  let maxargs :=
    if restvar.isSome ∨ keyp ∨ state = .aux then callArgumentsLimit
    else required.length + optionals.length
  return {
    required, optionals, restvar, keywords, allowOtherKeys, auxvars
    minargs := required.length
    maxargs
    arity := if required.length = maxargs then some maxargs else none
    nonConstantInitformP :=
      optionals.any (·.initval.isNone) || keywords.any (·.initval.isNone)
    specials, body, env }

namespace Closure

def suppliedNames (var : Symbol) (suppliedPVar : Option Symbol) : List Symbol :=
  var :: suppliedPVar.toList

/-- The variables whose values `processArgs` finds. -/
def lambdaListNames (c : Closure) : List Symbol :=
  c.required ++ c.optionals.flatMap (fun op => suppliedNames op.var op.suppliedPVar) ++
    c.restvar.toList ++ c.keywords.flatMap fun kp => suppliedNames kp.var kp.suppliedPVar

/-! ## Arguments -/

def bind (c : Closure) (name : Symbol) (v : Value) (env : ℕ) : Interp Unit := do
  let s ← get
  if s.specialVariable name || c.specials.contains name then
    record (.bindParameter name)
    bindSpecial name v
  else bindLexical env name v

/-- The variables are bound in a second environment if there is an initform that needs it. -/
def bindTemp (c : Closure) (name : Symbol) (v : Value) : Option ℕ → Interp Unit
  | some temp => c.bind name v temp
  | none => return ()

def bindAll (c : Closure) (env : ℕ) : List Symbol → List Value → Interp Unit
  | name :: names, v :: vals => do
    c.bind name v env
    c.bindAll env names vals
  | [], _ => return ()
  | _ :: _, [] => exit .undefined

def bindSupplied (c : Closure) (suppliedPVar : Option Symbol) (suppliedP : Value)
    (temp : Option ℕ) : Interp (List Value) :=
  match suppliedPVar with
  | some name => do
    c.bindTemp name suppliedP temp
    return [suppliedP]
  | none => return []

def initial (ev : Form → ℕ → Interp Value) (initform : Form) (initval : Option Value)
    (temp : Option ℕ) : Interp Value :=
  match initval, temp with
  | some v, _ => return v
  | none, some temp => ev initform temp
  | none, none => exit .undefined

def processRequired (c : Closure) (temp : Option ℕ) :
    List Symbol → List Value → Interp (List Value × List Value)
  | [], args => return ([], args)
  | _ :: _, [] => exit .undefined
  | var :: vars, arg :: args => do
    c.bindTemp var arg temp
    let (vals, args) ← c.processRequired temp vars args
    return (arg :: vals, args)

/-- The value of a parameter, whether it is supplied, and the arguments that remain. -/
def optionalValue (ev : Form → ℕ → Interp Value) (op : OptionalParameter) (temp : Option ℕ) :
    List Value → Interp (Value × Value × List Value)
  | arg :: args => return (arg, .t, args)
  | [] => do
    let value ← initial ev op.initform op.initval temp
    return (value, .nil, [])

def processOptionals (ev : Form → ℕ → Interp Value) (c : Closure) (temp : Option ℕ) :
    List OptionalParameter → List Value → Interp (List Value × List Value)
  | [], args => return ([], args)
  | op :: ops, args => do
    let (value, suppliedP, args) ← optionalValue ev op temp args
    c.bindTemp op.var value temp
    let supplied ← c.bindSupplied op.suppliedPVar suppliedP temp
    let (vals, args) ← c.processOptionals ev temp ops args
    return (value :: (supplied ++ vals), args)

def makeList : List Value → Interp Value
  | [] => return .nil
  | v :: vs => do
    let tail ← makeList vs
    makeObject (.cons v tail)

def processRest (c : Closure) (temp : Option ℕ) (args : List Value) : Interp (List Value) :=
  match c.restvar with
  | some var => do
    let restval ← makeList args
    c.bindTemp var restval temp
    return [restval]
  | none => return []

/-- The argument after the first occurrence of a keyword. -/
def findKeyword (keyword : Symbol) : List Value → Option Value
  | k :: v :: args => if k = .symbol keyword then some v else findKeyword keyword args
  | _ => none

def keywordValue (ev : Form → ℕ → Interp Value) (kp : KeywordParameter) (temp : Option ℕ)
    (args : List Value) : Interp (Value × Value) :=
  match findKeyword kp.keyword args with
  | some v => return (v, .t)
  | none => do
    let value ← initial ev kp.initform kp.initval temp
    return (value, .nil)

/-- The last argument is `allow_other_keys_value`. -/
def processKeywords (ev : Form → ℕ → Interp Value) (c : Closure) (temp : Option ℕ)
    (args : List Value) :
    List KeywordParameter → Option Value → Interp (List Value × Option Value)
  | [], allow => return ([], allow)
  | kp :: kps, allow => do
    let (value, suppliedP) ← keywordValue ev kp temp args
    c.bindTemp kp.var value temp
    let supplied ← c.bindSupplied kp.suppliedPVar suppliedP temp
    let allow := if kp.keyword = .allowOtherKeys then some (allow.getD value) else allow
    let (vals, allow) ← c.processKeywords ev temp args kps allow
    return (value :: (supplied ++ vals), allow)

def unknown (c : Closure) (keyword : Value) : Option Value :=
  if c.keywords.any fun kp => Value.symbol kp.keyword = keyword then none else some keyword

def scanKeywords (c : Closure) (allowOtherKeys : Bool) :
    List Value → Option Value → Option Value → Interp (Bool × Option Value)
  | [], _, unrecognized => return (allowOtherKeys, unrecognized)
  | [keyword], allow, unrecognized =>
    if keyword = .symbol .allowOtherKeys then
      if allow.isNone then exit .undefined else return (allowOtherKeys, unrecognized)
    else return (allowOtherKeys, unrecognized.or (c.unknown keyword))
  | keyword :: v :: args, allow, unrecognized =>
    if keyword = .symbol .allowOtherKeys then
      if allow.isNone then
        if v ≠ .nil then return (true, unrecognized)
        else c.scanKeywords allowOtherKeys args (some v) unrecognized
      else c.scanKeywords allowOtherKeys args allow unrecognized
    else c.scanKeywords allowOtherKeys args allow (unrecognized.or (c.unknown keyword))

/-- Other keys are looked for if there is no `&REST` parameter. -/
def checkKeywords (c : Closure) (args : List Value) (allow : Option Value) : Interp Unit :=
  if c.restvar.isNone ∧ args ≠ [] then do
    let allowed := c.allowOtherKeys || allow.any (· ≠ .nil)
    let (allowed, unrecognized) ← c.scanKeywords allowed args allow none
    match unrecognized with
    | some keyword =>
      if allowed then return () else exit (.error (.unrecognizedKeywordArgument keyword))
    | none => return ()
  else return ()

def newTemp (c : Closure) : Interp (Option ℕ) :=
  if c.nonConstantInitformP || !c.auxvars.isEmpty then do
    let temp ← newEnvironment c.env
    return some temp
  else return none

/-- `Closure::process_args`. -/
def processArgs (ev : Form → ℕ → Interp Value) (c : Closure) (args : List Value) :
    Interp (List Value) := do
  let temp ← c.newTemp
  let (required, args) ← c.processRequired temp c.required args
  if c.arity.isSome then return required
  else
    let (optionals, args) ← c.processOptionals ev temp c.optionals args
    let rest ← c.processRest temp args
    if !c.keywords.isEmpty && args.length % 2 != 0 then
      exit (.error .oddNumberOfKeywordArguments)
    else
      let (keywords, allow) ← c.processKeywords ev temp args c.keywords none
      c.checkKeywords args allow
      return required ++ optionals ++ rest ++ keywords

/-! ## Entry points -/

/-- The implicit PROGN. -/
def progn (ev : Form → ℕ → Interp Value) (env : ℕ) : List Form → Value → Interp Value
  | [], result => return result
  | form :: body, _ => do
    let result ← ev form env
    progn ev env body result

def auxValue (ev : Form → ℕ → Interp Value) (ext : ℕ) : Option Form → Interp Value
  | some form => ev form ext
  | none => return .nil

def bindAuxvars (ev : Form → ℕ → Interp Value) (c : Closure) (ext : ℕ) :
    List (Symbol × Option Form) → Interp Unit
  | [] => return ()
  | (var, initform) :: auxvars => do
    let value ← auxValue ev ext initform
    c.bind var value ext
    c.bindAuxvars ev ext auxvars

/-- `execute(numargs, args)`. -/
def executeArray (ev : Form → ℕ → Interp Value) (c : Closure) (args : List Value) :
    Interp Value := do
  if (c.minargs > 0 ∧ args.length < c.minargs) ∨ (c.maxargs > 0 ∧ args.length > c.maxargs) then
    exit (.error .wrongNumberOfArguments)
  else
    let ext ← newEnvironment c.env
    declareSpecials ext c.specials
    let vals ← c.processArgs ev args
    c.bindAll ext c.lambdaListNames vals
    c.bindAuxvars ev ext c.auxvars
    progn ev ext c.body .nil

/-- The entry points for up to six arguments. -/
def execute (ev : Form → ℕ → Interp Value) (c : Closure) (args : List Value) : Interp Value := do
  if c.arity = some args.length then
    let ext ← newEnvironment c.env
    declareSpecials ext c.specials
    c.bindAll ext c.required args
    progn ev ext c.body .nil
  else if c.arity.isNone then c.executeArray ev args
  else exit (.error .wrongNumberOfArguments)

end Closure

end Xcl.Interpreter
