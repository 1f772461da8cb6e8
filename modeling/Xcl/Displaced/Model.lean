import Xcl.Arrays.Model

/-!
# Displaced arrays

* `AbstractArray`: an array with a storage of its own, or one displaced to another array;
* `aref`, `aset`: the accesses by row-major index, class by class; a read says which place of the
  storage it has touched.

The element type that a call gives, fill pointers, and the dimensions of an array beside its total
size are left out. `INDEX` and `unsigned long` have 64 bits.
-/

namespace Xcl.Displaced

open Arrays (computeTotalSize mostPositiveFixnum)

inductive Value
  | character (code : ℕ)
  | fixnum (n : ℤ)
  | object (id : ℕ)
  deriving DecidableEq

/-- What `element_type` returns: `t` stands for any type without a class of its own. -/
inductive ElementType
  | character | bit | ub8 | ub16 | ub32 | t | nil
  deriving DecidableEq

inductive Failure
  | index (i : ℤ)
  /-- `access_error`: a `NilVector` has no elements. -/
  | access
  | element (place : ℕ) (value : Value)
  /-- A new value is not of the array's type. -/
  | value (value : Value)
  | dimensions
  | notImplemented
  deriving DecidableEq

namespace ElementType

def accepts : ElementType → Value → Bool
  | .character, .character _ => true
  | .bit, .fixnum n => n = 0 ∨ n = 1
  | .ub8, .fixnum n => 0 ≤ n ∧ n < 256
  | .ub16, .fixnum n => 0 ≤ n ∧ n < 65536
  | .ub32, .fixnum n => 0 ≤ n ∧ n < 4294967296
  | .t, _ => true
  | _, _ => false

/-- What a displaced vector does with an element of its target: `char_value` in a `String`,
`check_bit` in a `BitVector`. -/
def readCheck (type : ElementType) (access : ℕ × Value) : Except Failure (ℕ × Value) :=
  if (type = .character ∨ type = .bit) ∧ type.accepts access.2 = false then
    .error (.element access.1 access.2)
  else .ok access

/-- What a displaced vector does with a new value before it passes it on. -/
def writeCheck (type : ElementType) (value : Value) : Except Failure Value :=
  if (type = .character ∨ type = .bit ∨ type = .ub32) ∧ type.accepts value = false then
    .error (.value value)
  else .ok value

/-- What a vector does with a new value before it stores it. -/
def storeCheck (type : ElementType) (value : Value) : Except Failure Value :=
  if type.accepts value then .ok value else .error (.value value)

end ElementType

/-- `ZeroRankArray`; the vector classes; `SimpleArray_T` and `Array_T` -/
inductive Kind
  | zeroRank | vector | general
  deriving DecidableEq

/-- An array that is not displaced. Its size is a fixnum. -/
structure Storage where
  kind : Kind
  simple : Bool
  type : ElementType
  elements : List Value
  bounded : elements.length < 2 ^ 61

inductive AbstractArray
  | storage (s : Storage)
  | displaced (kind : Kind) (type : ElementType) (totalSize offset : ℕ) (array : AbstractArray)

/-! ## Accesses -/

namespace Storage

variable (s : Storage)

def aref (i : ℕ) : Except Failure (ℕ × Value) :=
  if s.kind = .vector ∧ s.type = .nil then .error .access
  else match s.elements[i]? with
    | some value => .ok (i, value)
    | none => .error (.index i)

def aset (i : ℕ) (value : Value) : Except Failure Storage :=
  if s.kind = .vector ∧ s.type = .nil then .error .access
  else if i ≥ s.elements.length then .error (.index i)
  else do
    let value ← if s.kind = .vector then s.type.storeCheck value else .ok value
    return { s with
      elements := s.elements.set i value
      bounded := by rw [List.length_set]; exact s.bounded }

end Storage

namespace AbstractArray

def kind : AbstractArray → Kind
  | .storage s => s.kind
  | .displaced kind _ _ _ _ => kind

def elementType : AbstractArray → ElementType
  | .storage s => s.type
  | .displaced _ type _ _ _ => type

def totalSize : AbstractArray → ℕ
  | .storage s => s.elements.length
  | .displaced _ _ totalSize _ _ => totalSize

def aref : AbstractArray → ℕ → Except Failure (ℕ × Value)
  | .storage s, i => s.aref i
  | .displaced .zeroRank _ _ offset array, i =>
    if i = 0 then array.aref offset else .error (.index i)
  | .displaced .vector type capacity offset array, i =>
    if i ≥ capacity then .error (.index i)
    else do type.readCheck (← array.aref ((i + offset) % 2 ^ 64))
  | .displaced .general _ _ offset array, i => array.aref ((i + offset) % 2 ^ 64)

def aset : AbstractArray → ℕ → Value → Except Failure AbstractArray
  | .storage s, i, value => do return .storage (← s.aset i value)
  | .displaced .zeroRank type n offset array, i, value =>
    if i = 0 then do return .displaced .zeroRank type n offset (← array.aset offset value)
    else .error (.index i)
  | .displaced .vector type capacity offset array, i, value =>
    if i ≥ capacity then .error (.index i)
    else do
      let value ← type.writeCheck value
      return .displaced .vector type capacity offset
        (← array.aset ((i + offset) % 2 ^ 64) value)
  | .displaced .general type n offset array, i, value => do
    return .displaced .general type n offset (← array.aset ((i + offset) % 2 ^ 64) value)

end AbstractArray

def checkIndex (value : ℤ) : Except Failure ℕ :=
  if 0 ≤ value ∧ value ≤ mostPositiveFixnum then .ok value.toNat else .error (.index value)

def rowMajorAref (array : AbstractArray) (index : ℤ) : Except Failure (ℕ × Value) := do
  array.aref (← checkIndex index)

def rowMajorAset (array : AbstractArray) (index : ℤ) (value : Value) :
    Except Failure AbstractArray := do
  array.aset (← checkIndex index) value

/-! ## Displacing -/

/-- The class of a vector displaced to an array of the type. -/
def vectorType : ElementType → ElementType
  | .nil => .t
  | type => type

def checkOffset (displacedIndexOffset : Option ℤ) : Except Failure ℕ :=
  displacedIndexOffset.elim (.ok 0) checkIndex

/-- `%make-array` with `displaced-to`: `make_displaced_array` -/
def makeArray (dimensions : List ℤ) (displacedTo : AbstractArray)
    (displacedIndexOffset : Option ℤ) : Except Failure AbstractArray := do
  let dims ← dimensions.mapM checkIndex
  let offset ← checkOffset displacedIndexOffset
  let type := displacedTo.elementType
  match dims with
  | [] => return .displaced .zeroRank type 1 offset displacedTo
  | [dim] => return .displaced .vector (vectorType type) dim offset displacedTo
  | dims => return .displaced .general type (computeTotalSize dims) offset displacedTo

def displaceVector (newCapacity : ℕ) (displacedTo : AbstractArray) (offset : ℕ) :
    AbstractArray → Except Failure AbstractArray
  | .storage s =>
    if s.type = .nil ∨ s.simple ∧ (s.type = .ub8 ∨ s.type = .ub16 ∨ s.type = .ub32) then
      .error .notImplemented
    else .ok (.displaced .vector s.type newCapacity offset displacedTo)
  | .displaced _ type _ _ _ => .ok (.displaced .vector type newCapacity offset displacedTo)

/-- `displace_array`, which only a `SimpleArray_T` implements -/
def displaceArray (dims : List ℕ) (displacedTo : AbstractArray) (offset : ℕ) :
    AbstractArray → Except Failure AbstractArray
  | .storage s =>
    if s.simple then
      .ok (.displaced .general displacedTo.elementType (computeTotalSize dims) offset displacedTo)
    else .error .notImplemented
  | .displaced _ _ _ _ _ => .error .notImplemented

/-- `%adjust-array` with `displaced-to` -/
def adjustArray (array : AbstractArray) (dimensions : List ℤ) (displacedTo : AbstractArray)
    (displacedIndexOffset : Option ℤ) : Except Failure AbstractArray :=
  match array.kind with
  | .zeroRank => .ok array
  | .vector => do
    let [dim] := dimensions | .error .dimensions
    let newSize ← checkIndex dim
    let offset ← checkOffset displacedIndexOffset
    displaceVector newSize displacedTo offset array
  | .general => do
    -- the rank and the offset are `unsigned int`s
    let dims ← (dimensions.take (dimensions.length % 2 ^ 32)).mapM checkIndex
    let offset ← checkOffset displacedIndexOffset
    displaceArray dims displacedTo (offset % 2 ^ 32) array

/-- A call that displaces: `%adjust-array` of an array of rank one or more, or `%make-array`. -/
structure Request where
  array : Option { array : AbstractArray // array.kind ≠ .zeroRank }
  dimensions : List ℤ
  displacedIndexOffset : Option ℤ

namespace Request

variable (r : Request)

def run (displacedTo : AbstractArray) : Except Failure AbstractArray :=
  match r.array with
  | none => makeArray r.dimensions displacedTo r.displacedIndexOffset
  | some array => adjustArray array r.dimensions displacedTo r.displacedIndexOffset

/-- The offset that the call asks for. -/
def offset : ℕ := (r.displacedIndexOffset.getD 0).toNat

end Request

inductive Chain
  | storage (s : Storage)
  | displaced (r : Request) (displacedTo : Chain)

def Chain.array : Chain → Except Failure AbstractArray
  | .storage s => .ok (.storage s)
  | .displaced r displacedTo => do r.run (← displacedTo.array)

end Xcl.Displaced
