import Xcl.Defstruct.Model

/-!
# Chains of structures and their functions

* `Definition`: a `defstruct` form with any `:conc-name`, `:initial-offset` and `:named`;
* `Description`, `defineStructure`: the slots of a structure and the functions defined for it.

The types of slots are not described, and neither are constructors with a lambda list.
-/

namespace Xcl.Defstruct.Access

/-! ## Definitions -/

/-- A slot; a slot of an offset has the name `NIL`, and the reader `NIL` is no reader. -/
structure Slot where
  name : Symbol
  index : ℕ
  reader : Symbol
  initform : Form
  readOnly : Bool
  deriving DecidableEq

/-- A `defstruct` form after `parse-name-and-options`. -/
structure Definition where
  name : Symbol
  concName : Option Symbol
  constructors : List Symbol
  copier : Option Symbol
  predicate : Option Symbol
  includeOption : Option (Symbol × List (Symbol × Form))
  initialOffset : ℕ
  named : Bool
  slots : List (Symbol × Form × Bool)

structure Description where
  name : Symbol
  concName : Option Symbol
  constructors : List Symbol
  copier : Option Symbol
  predicate : Option Symbol
  includeName : Option Symbol
  slots : List Slot
  typeNames : List Symbol

inductive Function
  | constructor (typeNames : List Symbol) (slots : List Slot)
  | predicate (name : Symbol)
  | reader (name : Symbol) (index : ℕ)
  | copier
  deriving DecidableEq

structure State (A : Type) where
  definitions : List Description
  functions : List (Symbol × Function)
  /-- The `SETF` functions, with the name of a structure and the index of a slot. -/
  setfFunctions : List (Symbol × Symbol × ℕ)
  heap : List (Instance A)

def State.initial {A : Type} : State A := ⟨[], [], [], []⟩

def findDescription (definitions : List Description) (name : Symbol) : Option Description :=
  definitions.find? fun dd => dd.name = name

/-- The included structures, from the given one on. -/
def includes (definitions : List Description) : ℕ → Symbol → List Description
  | 0, _ => []
  | fuel + 1, name =>
    match findDescription definitions name with
    | none => []
    | some dd =>
      match dd.includeName with
      | none => [dd]
      | some name' => dd :: includes definitions fuel name'

/-- `*inherited-accessors-alist*`. The structure that is furthest away comes first, and of several
entries with one key only the first one is made. -/
def inheritedAccessors (definitions : List Description) (form : Definition) : List (Symbol × ℕ) :=
  match form.includeOption with
  | none => []
  | some (name, _) =>
    (includes definitions definitions.length name).reverse.flatMap fun dd =>
      dd.slots.map fun slot => (slot.reader, slot.index)

def accessorName (concName : Option Symbol) (name : Symbol) : Symbol :=
  match concName with
  | some conc => conc ++ name
  | none => name

/-- `set-slot-initform` for the first slot with the name. -/
def setInitform (slots : List Slot) (override : Symbol × Form) : List Slot :=
  match slots.findIdx? fun slot => slot.name = override.1 with
  | none => slots
  | some i => slots.modify i fun slot => { slot with initform := override.2 }

/-- The copied slots of the included structure. They are collected in reverse. -/
def includedSlots (dd : Description) (overrides : List (Symbol × Form)) : List Slot :=
  (overrides.foldl setInitform
    (dd.slots.mapIdx fun i slot => { slot with index := i }).reverse).reverse

/-- The slots of `:initial-offset` and `:named`, from an index on. -/
def offsetSlots (form : Definition) (index : ℕ) : List Slot :=
  (List.range form.initialOffset).map (fun i =>
    { name := "NIL", index := index + i, reader := "NIL", initform := .nil, readOnly := true }) ++
  if form.named then
    [{ name := "NIL", index := index + form.initialOffset, reader := "NIL",
       initform := .ofList [.symbol "QUOTE", .symbol form.name], readOnly := true }]
  else []

def directSlots (form : Definition) (index : ℕ) : List Slot :=
  form.slots.mapIdx fun i slot =>
    { name := slot.1, index := index + i, reader := accessorName form.concName slot.1,
      initform := slot.2.1, readOnly := slot.2.2 }

/-- `*dd-slots*` -/
def allSlots (form : Definition) (included : List Slot) : List Slot :=
  let offset := offsetSlots form included.length
  included ++ offset ++ directSlots form (included.length + offset.length)

/-- No functions are defined for a slot whose accessor is inherited, whatever its index is. -/
def isInherited (form : Definition) (inherited : List (Symbol × ℕ)) (slot : Slot) : Bool :=
  (inherited.lookup (accessorName form.concName slot.name)).isSome

/-- `define-reader` sets the reader of the slot. -/
def setReaders (form : Definition) (inherited : List (Symbol × ℕ)) (slots : List Slot) :
    List Slot :=
  slots.map fun slot =>
    if isInherited form inherited slot then slot
    else { slot with reader := accessorName form.concName slot.name }

/-- The readers of `define-access-functions`. -/
def defineReaders (form : Definition) (inherited : List (Symbol × ℕ)) (slots : List Slot) :
    List (Symbol × Function) :=
  (slots.filter fun slot => !isInherited form inherited slot).map fun slot =>
    (accessorName form.concName slot.name, .reader form.name slot.index)

/-- The writers of `define-access-functions`. -/
def defineWriters (form : Definition) (inherited : List (Symbol × ℕ)) (slots : List Slot) :
    List (Symbol × Symbol × ℕ) :=
  (slots.filter fun slot => !isInherited form inherited slot && !slot.readOnly).map fun slot =>
    (accessorName form.concName slot.name, form.name, slot.index)

/-- The names of the constructors; the default name is used when none is given. -/
def constructorNames (form : Definition) : List Symbol :=
  if form.constructors.isEmpty then ["MAKE-" ++ form.name]
  else form.constructors.filter fun name => name ≠ "NIL"

/-- `define-constructors`, for constructors with keywords. -/
def defineConstructors (form : Definition) (typeNames : List Symbol) (slots : List Slot) :
    List (Symbol × Function) :=
  (constructorNames form).map fun name => (name, .constructor typeNames slots)

/-- The functions, in the order in which the expansion defines them. -/
def defineFunctions (form : Definition) (inherited : List (Symbol × ℕ)) (typeNames : List Symbol)
    (slots : List Slot) : List (Symbol × Function) :=
  defineConstructors form typeNames slots ++
    form.predicate.toList.map (fun name => (name, .predicate form.name)) ++
    defineReaders form inherited slots ++ form.copier.toList.map fun name => (name, .copier)

/-- The definition of a structure, given the slots and the types of the included one. -/
def define {A : Type} (s : State A) (form : Definition) (included : List Slot)
    (supertypes : List Symbol) : State A :=
  let inherited := inheritedAccessors s.definitions form
  let slots := allSlots form included
  let typeNames := form.name :: supertypes
  { s with
    definitions :=
      { name := form.name, concName := form.concName, constructors := constructorNames form,
        copier := form.copier, predicate := form.predicate,
        includeName := form.includeOption.map (·.1), slots := setReaders form inherited slots,
        typeNames := typeNames } :: s.definitions
    functions := (defineFunctions form inherited typeNames slots).reverse ++ s.functions
    setfFunctions := (defineWriters form inherited slots).reverse ++ s.setfFunctions }

/-- `defstruct`; `none` is the error for an undefined class. -/
def defineStructure {A : Type} (s : State A) (form : Definition) : Option (State A) :=
  match form.includeOption with
  | none => some (define s form [] [])
  | some (name, overrides) =>
    match findDescription s.definitions name with
    | none => none
    | some dd => some (define s form (includedSlots dd overrides) dd.typeNames)

/-! ## Calls -/

inductive Outcome (A : Type)
  | value (v : Value A)
  | boolean (b : Bool)
  | typeError (datum : Value A)
  | programError
  | undefined

variable {A : Type}

/-- A slot has a keyword parameter; otherwise its initform is evaluated in every call. -/
def Slot.isKey (slot : Slot) : Bool := slot.name ≠ "NIL" || slot.reader ≠ "NIL"

/-- The value of a slot in a call with keywords. -/
def slotValue (eval : Form → Value A) (keyArgs : List (Symbol × Value A)) (slot : Slot) :
    Value A :=
  if slot.isKey then keyValue eval keyArgs slot.name slot.initform else eval slot.initform

/-- The values of all slots; `none` is an error in the arguments. -/
def slotValues (eval : Form → Value A) (slots : List Slot) (args : List (Value A)) :
    Option (List (Value A)) :=
  match keyArguments args with
  | none => none
  | some keyArgs =>
    if checkKeys ((slots.filter Slot.isKey).map Slot.name) false keyArgs then
      some (slots.map (slotValue eval keyArgs))
    else none

/-- The object for an instance. -/
def reference (s : State A) (address : ℕ) : Option (Value A) :=
  s.heap[address]?.map fun i => .structureObject address i.types

/-- `%%make-structure` -/
def allocate (s : State A) (types : List Symbol) (slots : List (Value A)) :
    Outcome A × State A :=
  (.value (.structureObject s.heap.length types), { s with heap := s.heap ++ [⟨types, slots⟩] })

def instanceOf (s : State A) : Value A → Option (ℕ × Instance A)
  | .structureObject address types =>
    match s.heap[address]? with
    | some i => if i.types = types then some (address, i) else none
    | none => none
  | _ => none

def structureTypep (v : Value A) (name : Symbol) : Bool :=
  match v with
  | .structureObject _ types => types.contains name
  | _ => false

/-- The instance of an accessor, after the check of its type. -/
def theInstance (s : State A) (name : Symbol) (v : Value A) : Option (ℕ × Instance A) :=
  if structureTypep v name then instanceOf s v else none

def structureRef (s : State A) (name : Symbol) (index : ℕ) (v : Value A) : Outcome A :=
  match theInstance s name v with
  | none => .typeError v
  | some (_, i) =>
    match i.slots[index]? with
    | some w => .value w
    | none => .typeError v

def structureSet (s : State A) (name : Symbol) (index : ℕ) (value v : Value A) :
    Outcome A × State A :=
  match theInstance s name v with
  | none => (.typeError v, s)
  | some (address, i) =>
    if index < i.slots.length then
      (.value value,
        { s with
          heap := s.heap.modify address fun i => { i with slots := i.slots.set index value } })
    else (.typeError v, s)

def copyStructure (s : State A) (v : Value A) : Outcome A × State A :=
  match instanceOf s v with
  | none => (.typeError v, s)
  | some (_, i) => allocate s i.types i.slots

/-- A call of a function by its name; `eval` gives the values of initforms. -/
def call (s : State A) (eval : Form → Value A) (name : Symbol) (args : List (Value A)) :
    Outcome A × State A :=
  match s.functions.lookup name, args with
  | some (.constructor typeNames slots), args =>
    match slotValues eval slots args with
    | none => (.programError, s)
    | some values => allocate s typeNames values
  | some (.predicate name), [v] => (.boolean (structureTypep v name), s)
  | some (.reader name index), [v] => (structureRef s name index v, s)
  | some .copier, [v] => copyStructure s v
  | some _, _ => (.programError, s)
  | none, _ => (.undefined, s)

/-- `(setf (accessor v) value)` -/
def callSetf (s : State A) (name : Symbol) (value v : Value A) : Outcome A × State A :=
  match s.setfFunctions.lookup name with
  | some (structureName, index) => structureSet s structureName index value v
  | none => (.undefined, s)

/-! ## Chains -/

/-- The form includes the structure that was defined before, if there is one. -/
def Continues (s : State A) (form : Definition) : Prop :=
  form.includeOption.map (·.1) = s.definitions.head?.map (·.name) ∧
    ∀ dd ∈ s.definitions, dd.name ≠ form.name

inductive Reaches : State A → Prop
  | initial : Reaches .initial
  | define {s s' : State A} (form : Definition) (h : Reaches s) (hcontinues : Continues s form)
    (hdefine : defineStructure s form = some s') : Reaches s'
  | call {s : State A} (eval : Form → Value A) (name : Symbol) (args : List (Value A))
    (h : Reaches s) : Reaches (call s eval name args).2
  | setf {s : State A} (name : Symbol) (value v : Value A) (h : Reaches s) :
    Reaches (callSetf s name value v).2

end Xcl.Defstruct.Access
