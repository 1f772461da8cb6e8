import Mathlib.Tactic

/-!
# Structures

* `p1RequireType`, `p1The`: the type checks that the compiler makes at a safety above zero;
* `defstruct`: the description of a structure, with the slots of an included one.

Only structures without a `:type`, `:initial-offset` or `:named` option are described, and all their
functions are compiled. The values of initforms are given with each call.
-/

namespace Xcl.Defstruct

/-! ## Data -/

abbrev Symbol := String

inductive Form
  | symbol (name : Symbol)
  | number (n : ℤ)
  | cons (car cdr : Form)
  deriving DecidableEq

namespace Form

def nil : Form := .symbol "NIL"

def t : Form := .symbol "T"

def ofList : List Form → Form
  | [] => nil
  | a :: rest => .cons a (ofList rest)

def car : Form → Form
  | .cons a _ => a
  | _ => nil

end Form

inductive Value (A : Type)
  | nil
  | keyword (name : Symbol)
  | list (elements : List (Value A))
  | structureObject (address : ℕ) (types : List Symbol)
  | other (a : A)

/-- What the compiler and the kernel know about types. -/
structure TypeSystem (A : Type) where
  typep : Value A → Form → Bool
  canonicalizeType : Form → Form
  subtypep : Form → Form → Bool
  deftypeExpander : Symbol → Bool
  /-- The bounds of a canonical subtype of fixnum. -/
  fixnumType : Form → Option (ℤ × ℤ)

structure Policy where
  safety : ℕ
  forceTypeChecks : Bool
  safety_pos : 0 < safety

/-! ## Type checks -/

/-- The form that the compiler puts in the place of a call of `require-type`. -/
inductive Check
  | require (type : Symbol)
  | checkFixnumBounds (low high : ℤ)
  | requireStructureType (type : Symbol)
  | structureObjectP
  | requireType (type : Form)
  | progn

def mostNegativeFixnum : ℤ := -2305843009213693952

def mostPositiveFixnum : ℤ := 2305843009213693951

/-- The types with a function of their own. -/
def requireNames : List Symbol :=
  ["SYMBOL", "CHARACTER", "CONS", "FUNCTION", "LIST", "STRING", "SIMPLE-STRING", "HASH-TABLE",
    "FIXNUM", "INTEGER", "NUMBER", "KEYWORD", "STREAM", "UNSIGNED-BYTE", "BOOLEAN"]

section
variable {A : Type} (ts : TypeSystem A)

def requireNamed : Form → Option Check
  | .symbol name => if name ∈ requireNames then some (.require name) else none
  | type =>
    if type = .ofList [.symbol "MEMBER", .t, .nil] ∨
        type = .ofList [.symbol "MEMBER", .nil, .t] then
      some (.require "BOOLEAN")
    else none

def requireFixnum (type canonical : Form) : Check :=
  if canonical = .ofList [.symbol "INTEGER", .number mostNegativeFixnum,
      .number mostPositiveFixnum] then .require "FIXNUM"
  else
    match ts.fixnumType canonical with
    | some (low, high) => .checkFixnumBounds low high
    | none => .requireType type

def requireStructure : Form → Check
  | .symbol name =>
    if ts.deftypeExpander name then .structureObjectP else .requireStructureType name
  | _ => .structureObjectP

def requireCanonical (p : Policy) (type canonical : Form) : Check :=
  if ts.subtypep canonical (.symbol "SIMPLE-STRING") then .require "SIMPLE-STRING"
  else if ts.subtypep canonical (.symbol "STRING") then .require "STRING"
  else if ts.subtypep canonical (.symbol "CONS") then .require "CONS"
  else if canonical.car ∈
      [Form.symbol "AND", .symbol "OR", .symbol "MEMBER", .symbol "SATISFIES"] then
    if p.safety = 3 then .requireType type else .progn
  else if ts.subtypep canonical (.symbol "FIXNUM") then requireFixnum ts type canonical
  else if ts.subtypep canonical (.symbol "FUNCTION") then .require "FUNCTION"
  else if canonical = .ofList [.symbol "INTEGER", .number 0, .symbol "*"] then
    .require "UNSIGNED-BYTE"
  else if ts.subtypep canonical (.symbol "SIMPLE-BIT-VECTOR") then .require "SIMPLE-BIT-VECTOR"
  else if ts.subtypep canonical (.symbol "SIMPLE-VECTOR") then .require "SIMPLE-VECTOR"
  else if ts.subtypep canonical (.symbol "VECTOR") then .require "VECTOR"
  else if ts.subtypep canonical (.symbol "STRUCTURE-OBJECT") then requireStructure ts canonical
  else if canonical = .symbol "WARNING" then .requireType type
  else if p.safety = 3 ∨ p.forceTypeChecks then .requireType type
  else .progn

def p1RequireType (p : Policy) (type : Form) : Check :=
  (requireNamed type).getD (requireCanonical ts p type (ts.canonicalizeType type))

/-- The check of a `the` form. -/
def p1The (p : Policy) (type : Form) : Check :=
  if type.car = .symbol "VALUES" then .progn
  else if type = .t then .progn
  else p1RequireType ts p type

/-- The value passes the check; otherwise a type error is signalled. -/
def Check.passes (v : Value A) : Check → Bool
  | .require type => ts.typep v (.symbol type)
  | .checkFixnumBounds low high =>
    ts.typep v (.ofList [.symbol "INTEGER", .number low, .number high])
  | .requireStructureType type =>
    match v with
    | .structureObject _ types => types.contains type
    | _ => false
  | .structureObjectP =>
    match v with
    | .structureObject _ _ => true
    | _ => false
  | .requireType type => ts.typep v type
  | .progn => true

end

/-! ## Definitions -/

structure SlotDefinition where
  name : Symbol
  index : ℕ
  reader : Symbol
  initform : Form
  type : Form
  readOnly : Bool

/-- A slot of a `defstruct` form. -/
structure SlotDescription where
  name : Symbol
  initform : Form
  type : Form
  readOnly : Bool

/-- A parsed lambda list of a constructor. A parameter without a default has none, an `&aux`
variable without a value neither. -/
structure LambdaList where
  req : List Symbol
  opt : List (Symbol × Option Form)
  rest : Option Symbol
  keyp : Bool
  keys : List (Symbol × Symbol × Option Form)
  allowp : Bool
  aux : List (Symbol × Option Form)

structure ConstructorOption where
  name : Symbol
  lambdaList : Option LambdaList

structure DefstructForm where
  name : Symbol
  concName : Option Symbol
  constructors : List ConstructorOption
  /-- The included structure and the slots with another initform. -/
  includeOption : Option (Symbol × List (Symbol × Form))
  slots : List SlotDescription

structure Accessor where
  name : Symbol
  ddName : Symbol
  index : ℕ
  type : Form
  readOnly : Bool

structure DefstructDescription where
  name : Symbol
  includeName : Option Symbol
  slots : List SlotDefinition
  typeNames : List Symbol
  constructors : List ConstructorOption
  accessors : List Accessor
  policy : Policy

def findDefinition (definitions : List DefstructDescription) (name : Symbol) :
    Option DefstructDescription := definitions.find? fun dd => dd.name = name

/-- The included structures, from the given one on. -/
def includes (definitions : List DefstructDescription) : ℕ → Symbol → List DefstructDescription
  | 0, _ => []
  | fuel + 1, name =>
    match findDefinition definitions name with
    | none => []
    | some dd =>
      match dd.includeName with
      | none => [dd]
      | some name' => dd :: includes definitions fuel name'

def inheritedAccessors (definitions : List DefstructDescription) (form : DefstructForm) :
    List Symbol :=
  match form.includeOption with
  | none => []
  | some (name, _) =>
    (includes definitions definitions.length name).flatMap fun dd => dd.slots.map (·.reader)

def accessorName (form : DefstructForm) (name : Symbol) : Symbol :=
  match form.concName with
  | some conc => conc ++ name
  | none => name

/-- Another initform for the first slot with the name. -/
def setInitform (slots : List SlotDefinition) (override : Symbol × Form) : List SlotDefinition :=
  match slots.findIdx? fun slot => slot.name = override.1 with
  | none => slots
  | some i => slots.modify i fun slot => { slot with initform := override.2 }

def numberSlots (slots : List SlotDefinition) : List SlotDefinition :=
  slots.mapIdx fun i slot => { slot with index := i }

/-- The slots of the included structure, with the initforms of the option. The slots are collected
in reverse, so that of two slots with one name the last one is found. -/
def includedSlots (dd : DefstructDescription) (overrides : List (Symbol × Form)) :
    List SlotDefinition := (overrides.foldl setInitform (numberSlots dd.slots).reverse).reverse

def directSlots (form : DefstructForm) (index : ℕ) : List SlotDefinition :=
  form.slots.mapIdx fun i slot =>
    { name := slot.name, index := index + i, reader := accessorName form slot.name,
      initform := slot.initform, type := slot.type, readOnly := slot.readOnly }

def defineAccessFunctions (form : DefstructForm) (inherited : List Symbol)
    (slots : List SlotDefinition) : List Accessor :=
  (slots.filter fun slot => !inherited.contains (accessorName form slot.name)).map fun slot =>
    { name := accessorName form slot.name, ddName := form.name, index := slot.index,
      type := slot.type, readOnly := slot.readOnly }

def setReaders (form : DefstructForm) (inherited : List Symbol) (slots : List SlotDefinition) :
    List SlotDefinition :=
  slots.map fun slot =>
    if inherited.contains (accessorName form slot.name) then slot
    else { slot with reader := accessorName form slot.name }

def defineConstructors (form : DefstructForm) : List ConstructorOption :=
  if form.constructors.isEmpty then [⟨"MAKE-" ++ form.name, none⟩]
  else form.constructors.filter fun constructor => constructor.name ≠ "NIL"

/-- The description of the structure; `none` is the error for an undefined class. -/
def defstruct (definitions : List DefstructDescription) (form : DefstructForm) (policy : Policy) :
    Option DefstructDescription :=
  let describe := fun (slots : List SlotDefinition) (supertypes : List Symbol) =>
    let inherited := inheritedAccessors definitions form
    { name := form.name, includeName := form.includeOption.map (·.1),
      slots := setReaders form inherited slots, typeNames := form.name :: supertypes,
      constructors := defineConstructors form,
      accessors := defineAccessFunctions form inherited slots, policy := policy }
  match form.includeOption with
  | none => some (describe (directSlots form 0) [])
  | some (name, overrides) =>
    match findDefinition definitions name with
    | none => none
    | some dd =>
      let slots := includedSlots dd overrides
      some (describe (slots ++ directSlots form slots.length) dd.typeNames)

/-! ## Lambda lists -/

section
variable {A : Type}

/-- The arguments as keywords with values; `none` is an error. -/
def keyArguments : List (Value A) → Option (List (Symbol × Value A))
  | [] => some []
  | .keyword name :: v :: args => (keyArguments args).map ((name, v) :: ·)
  | _ => none

def isNil : Value A → Bool
  | .nil => true
  | _ => false

/-- Other keywords are an error, unless they are allowed by the lambda list or by the call. -/
def checkKeys (known : List Symbol) (allowp : Bool) (args : List (Symbol × Value A)) : Bool :=
  allowp || (args.lookup "ALLOW-OTHER-KEYS").any (!isNil ·) ||
    args.all fun arg => arg.1 = "ALLOW-OTHER-KEYS" || known.contains arg.1

/-- The first argument with the keyword, or the value of the initform. -/
def keyValue (eval : Form → Value A) (args : List (Symbol × Value A)) (keyword : Symbol)
    (initform : Form) : Value A := (args.lookup keyword).getD (eval initform)

/-- The type and the initform of a slot; a parameter that is no slot has type `t`. -/
def getSlot (slots : List SlotDefinition) (name : Symbol) : Form × Form :=
  match slots.find? fun slot => slot.name = name with
  | some slot => (slot.type, slot.initform)
  | none => (.t, .nil)

/-- The lambda list with the initforms of the slots as defaults. -/
def boaArglist (slots : List SlotDefinition) (lambdaList : LambdaList) : LambdaList :=
  { lambdaList with
    opt := lambdaList.opt.map fun arg => (arg.1, some (arg.2.getD (getSlot slots arg.1).2))
    keys := lambdaList.keys.map fun key =>
      (key.1, key.2.1, some (key.2.2.getD (getSlot slots key.2.1).2)) }

/-- The variables of the lambda list, without the `&aux` variables that have no value. -/
def boaVars (lambdaList : LambdaList) : List Symbol :=
  lambdaList.req ++ lambdaList.opt.map (·.1) ++ lambdaList.rest.toList ++
    lambdaList.keys.map (·.2.1) ++ (lambdaList.aux.filter (·.2.isSome)).map (·.1)

def boaSkippedVars (lambdaList : LambdaList) : List Symbol :=
  (lambdaList.aux.filter (·.2.isNone)).map (·.1)

inductive SlotForm
  | nil
  | var (name : Symbol)
  | initform (form : Form)

def boaValues (slots : List SlotDefinition) (lambdaList : LambdaList) : List SlotForm :=
  slots.map fun slot =>
    if (boaSkippedVars lambdaList).contains slot.name then .nil
    else if (boaVars lambdaList).contains slot.name then .var slot.name
    else .initform slot.initform

/-- The optional parameters, with the arguments that are left. -/
def bindOptional (eval : Form → Value A) :
    List (Symbol × Option Form) → List (Value A) → List (Symbol × Value A) × List (Value A)
  | [], args => ([], args)
  | (name, default) :: opt, [] =>
    let (bindings, rest) := bindOptional eval opt []
    ((name, eval (default.getD .nil)) :: bindings, rest)
  | (name, _) :: opt, v :: args =>
    let (bindings, rest) := bindOptional eval opt args
    ((name, v) :: bindings, rest)

def listOf : List (Value A) → Value A
  | [] => .nil
  | args => .list args

/-- The variables of a call; `none` is an error in the arguments. -/
def bindLambdaList (eval : Form → Value A) (lambdaList : LambdaList) (args : List (Value A)) :
    Option (List (Symbol × Value A)) :=
  if args.length < lambdaList.req.length then none
  else
    let required := lambdaList.req.zip args
    let (optional, more) := bindOptional eval lambdaList.opt (args.drop lambdaList.req.length)
    let rest := lambdaList.rest.toList.map fun name => (name, listOf more)
    let aux := lambdaList.aux.map fun arg => (arg.1, arg.2.elim .nil eval)
    if lambdaList.keyp then
      match keyArguments more with
      | none => none
      | some keyArgs =>
        if checkKeys (lambdaList.keys.map (·.1)) lambdaList.allowp keyArgs then
          let keys := lambdaList.keys.map fun key =>
            (key.2.1, keyValue eval keyArgs key.1 (key.2.2.getD .nil))
          some (required ++ optional ++ rest ++ keys ++ aux)
        else none
    else if lambdaList.rest.isNone && !more.isEmpty then none
    else some (required ++ optional ++ rest ++ aux)

def SlotForm.value (eval : Form → Value A) (bindings : List (Symbol × Value A)) :
    SlotForm → Value A
  | .nil => .nil
  | .var name => (bindings.lookup name).getD .nil
  | .initform form => eval form

/-! ## Calls -/

structure Instance (A : Type) where
  types : List Symbol
  slots : List (Value A)

structure State (A : Type) where
  definitions : List DefstructDescription
  heap : List (Instance A)

def State.initial : State A := ⟨[], []⟩

inductive Outcome (A : Type)
  | value (v : Value A)
  | typeError (datum : Value A)
  | programError
  | undefined

def allocate (s : State A) (types : List Symbol) (slots : List (Value A)) :
    Outcome A × State A :=
  (.value (.structureObject s.heap.length types), { s with heap := s.heap ++ [⟨types, slots⟩] })

def keywordValues (eval : Form → Value A) (dd : DefstructDescription) (args : List (Value A)) :
    Option (List (Value A)) :=
  match keyArguments args with
  | none => none
  | some keyArgs =>
    if checkKeys (dd.slots.map (·.name)) false keyArgs then
      some (dd.slots.map fun slot => keyValue eval keyArgs slot.name slot.initform)
    else none

def boaArguments (eval : Form → Value A) (dd : DefstructDescription) (lambdaList : LambdaList)
    (args : List (Value A)) : Option (List (Value A)) :=
  (bindLambdaList eval (boaArglist dd.slots lambdaList) args).map fun bindings =>
    (boaValues dd.slots lambdaList).map (·.value eval bindings)

variable (ts : TypeSystem A)

/-- The first value that does not pass the check for its slot. -/
def failedCheck (p : Policy) : List SlotDefinition → List (Value A) → Option (Value A)
  | slot :: slots, v :: values =>
    if (p1RequireType ts p slot.type).passes ts v then failedCheck p slots values else some v
  | _, _ => none

/-- The variables of the slots are declared with the types of the slots. -/
def keywordConstructor (s : State A) (dd : DefstructDescription) (eval : Form → Value A)
    (args : List (Value A)) : Outcome A × State A :=
  match keywordValues eval dd args with
  | none => (.programError, s)
  | some values =>
    match failedCheck ts dd.policy dd.slots values with
    | some datum => (.typeError datum, s)
    | none => allocate s dd.typeNames values

/-- The types that are collected for the variables are not used. -/
def boaConstructor (s : State A) (dd : DefstructDescription) (lambdaList : LambdaList)
    (eval : Form → Value A) (args : List (Value A)) : Outcome A × State A :=
  match boaArguments eval dd lambdaList args with
  | none => (.programError, s)
  | some values => allocate s dd.typeNames values

def lookupInstance (s : State A) : Value A → Option (ℕ × Instance A)
  | .structureObject address types =>
    match s.heap[address]? with
    | some i => if i.types = types then some (address, i) else none
    | none => none
  | _ => none

def accessedInstance (s : State A) (a : Accessor) (v : Value A) : Option (ℕ × Instance A) :=
  if (Check.requireStructureType a.ddName).passes ts v then lookupInstance s v else none

def readSlot (s : State A) (a : Accessor) (v : Value A) : Outcome A :=
  match accessedInstance ts s a v with
  | none => .typeError v
  | some (_, i) =>
    match i.slots[a.index]? with
    | some w => .value w
    | none => .typeError v

def setSlot (s : State A) (address index : ℕ) (value : Value A) : State A :=
  { s with
    heap := s.heap.modify address fun i => { i with slots := i.slots.set index value } }

/-- The writer as a function does not check the value. -/
def writeSlot (s : State A) (a : Accessor) (value v : Value A) : Outcome A × State A :=
  match accessedInstance ts s a v with
  | none => (.typeError v, s)
  | some (address, i) =>
    if a.index < i.slots.length then (.value value, setSlot s address a.index value)
    else (.typeError v, s)

/-- The source transform of the writer has a `the` form for the value. -/
def writeSlotInline (p : Policy) (s : State A) (a : Accessor) (value v : Value A) :
    Outcome A × State A :=
  if (p1The ts p a.type).passes ts value then writeSlot ts s a value v else (.typeError value, s)

def copyStructure (s : State A) (v : Value A) : Outcome A × State A :=
  match lookupInstance s v with
  | none => (.typeError v, s)
  | some (_, i) => allocate s i.types i.slots

/-! ## Runs -/

inductive Call (A : Type)
  | defstruct (form : DefstructForm) (policy : Policy)
  | construct (name : Symbol) (k : ℕ) (eval : Form → Value A) (args : List (Value A))
  | copy (v : Value A)
  | write (name : Symbol) (k : ℕ) (value v : Value A)
  | writeInline (name : Symbol) (k : ℕ) (policy : Policy) (value v : Value A)

omit ts in
def findConstructor (s : State A) (name : Symbol) (k : ℕ) :
    Option (DefstructDescription × ConstructorOption) := do
  let dd ← findDefinition s.definitions name
  let constructor ← dd.constructors[k]?
  return (dd, constructor)

omit ts in
def findAccessor (s : State A) (name : Symbol) (k : ℕ) : Option Accessor := do
  let dd ← findDefinition s.definitions name
  dd.accessors[k]?

def execConstructor (s : State A) (dd : DefstructDescription) (constructor : ConstructorOption)
    (eval : Form → Value A) (args : List (Value A)) : Outcome A × State A :=
  match constructor.lambdaList with
  | none => keywordConstructor ts s dd eval args
  | some lambdaList => boaConstructor s dd lambdaList eval args

def exec (s : State A) : Call A → Outcome A × State A
  | .defstruct form policy =>
    match defstruct s.definitions form policy with
    | none => (.programError, s)
    | some dd => (.value .nil, { s with definitions := dd :: s.definitions })
  | .construct name k eval args =>
    match findConstructor s name k with
    | none => (.undefined, s)
    | some (dd, constructor) => execConstructor ts s dd constructor eval args
  | .copy v => copyStructure s v
  | .write name k value v =>
    match findAccessor s name k with
    | none => (.undefined, s)
    | some a => if a.readOnly then (.undefined, s) else writeSlot ts s a value v
  | .writeInline name k policy value v =>
    match findAccessor s name k with
    | none => (.undefined, s)
    | some a => if a.readOnly then (.undefined, s) else writeSlotInline ts policy s a value v

inductive RunsTo (meets : State A → Call A → Prop) : State A → Prop
  | initial : RunsTo meets .initial
  | step {s : State A} {call : Call A} : RunsTo meets s → meets s call →
    RunsTo meets (exec ts s call).2

variable {ts} in
theorem RunsTo.invariant {meets : State A → Call A → Prop} {Inv : State A → Prop}
    (hinitial : Inv .initial) (hstep : ∀ s call, Inv s → meets s call → Inv (exec ts s call).2)
    {s : State A} (hrun : RunsTo ts meets s) : Inv s := by
  induction hrun with
  | initial => exact hinitial
  | step _ hmeets ih => exact hstep _ _ ih hmeets

end

end Xcl.Defstruct
