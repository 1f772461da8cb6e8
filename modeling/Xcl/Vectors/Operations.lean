import Xcl.Vectors.Adjust

/-!
# Operations on a `Vector_T`

* `Op`: a computation that may stop and leave a changed vector.
-/

namespace Xcl.Vectors

open Loops

/-- A word whose tag is not that of `NULL_VALUE`. -/
abbrev LispValue := {word : BitVec 64 // lowtagOf word ≠ 5}

/-- The elements of an array, whose size is a fixnum. -/
abbrev LispArray := {values : List LispValue // values.length ≤ 2305843009213693951}

abbrev VectorT := State Slot Slot

def slot (x : LispValue) : Slot := some x.1

def LispArray.slots (array : LispArray) : List Slot := array.1.map slot

/-- `NIL`, `T` or an index -/
inductive FillPointer
  | none
  | capacity
  | index (n : ℕ)

/-- The initial contents, a list or a vector. The list of no elements is `NIL`, and so are contents
that are not supplied. -/
inductive Contents
  | list (values : List LispValue)
  | vector (values : List LispValue)

def Contents.isNil : Contents → Bool
  | .list [] => true
  | _ => false

/-- The element for index `i`: `car(list)` in round `i`, or `v->aref(i)`. -/
def Contents.get (nil : LispValue) : Contents → ℕ → Result LispValue
  | .list values, i => pure (values.getD i nil)
  | .vector values, i => arrayAref values i

def checkIndex (n max : ℕ) : Result Unit := if max < n then throw .badIndex else pure ()

def mostPositiveFixnum : ℕ := 2305843009213693951

/-- Storage that has not been written. -/
def newStorage (capacity : ℕ) : List Slot := malloc (fun _ => none) (vectorT.allocated capacity)

/-! ## Computations on a vector -/

abbrev Op := EStateM Stop VectorT

def ofResult {α : Type} (x : Result α) : Op α := fun s =>
  match x with
  | .ok a => .ok a s
  | .error e => .error e s

/-- `f`, and the vector that it leaves where it is stopped. -/
def leaving (f : VectorT → Result VectorT) (left : VectorT → VectorT) : Op Unit := fun s =>
  match f s with
  | .ok s' => .ok () s'
  | .error e => .error e (left s)

/-- What the rounds before the one that stops have made. -/
def reached {σ : Type} (body : ℕ → σ → Result σ) : ℕ → ℕ → σ → σ
  | 0, _, s => s
  | n + 1, i, s =>
    match body i s with
    | .ok s' => reached body n (i + 1) s'
    | .error _ => s

/-- A displaced vector gets its new storage before the elements are copied to it. -/
def interrupted (newCapacity limit : ℕ) (s : VectorT) : VectorT :=
  match s.vector.storage with
  | .owned _ => s
  | .displaced offset =>
    let data := reached (fun i data => do write data i (← arrayAref s.array (i + offset))) limit 0
      (newStorage newCapacity)
    { s with vector := { s.vector with storage := .owned data } }

/-! ## Vectors -/

def setLength (n : ℕ) (s : VectorT) : Result VectorT :=
  if s.vector.hasFillPointer then pure { s with vector := { s.vector with fillPointer := n } }
  else throw .noFillPointer

/-- `:fill-pointer`, after the vector has been made or adjusted -/
def setFillPointerTo (fillPointer : FillPointer) (s : VectorT) : Result VectorT :=
  match fillPointer with
  | .none => pure s
  | .capacity => setLength s.vector.capacity s
  | .index n => do
    checkIndex n s.vector.capacity
    setLength n s

def newVector (capacity : ℕ) (fillPointer : FillPointer) (storage : Storage Slot) :
    Result (Vec Slot) :=
  match fillPointer with
  | .none => pure ⟨capacity, false, 0, storage⟩
  | .capacity => pure ⟨capacity, true, capacity, storage⟩
  | .index n => do
    checkIndex n capacity
    return ⟨capacity, true, n, storage⟩

/-- `SYS_make_array_internal`, where it makes a `Vector_T`. -/
inductive Making
  | owned (size : ℕ) (fillPointer : FillPointer) (initialElement : Option LispValue)
    (initialContents : Contents)
  | displaced (size : ℕ) (fillPointer : FillPointer) (array : LispArray) (offset : ℕ)

def initialData (nil : LispValue) (size : ℕ) (initialElement : Option LispValue)
    (initialContents : Contents) : Result (List Slot) := do
  let data ← forLoop (fun i data => write data i (slot nil)) size 0 (newStorage size)
  match initialElement with
  | some x => forLoop (fun i data => write data i (slot x)) size 0 data
  | none =>
    if initialContents.isNil then pure data
    else forLoop (fun i data => do write data i (slot (← initialContents.get nil i))) size 0 data

def Making.make (nil : LispValue) : Making → Result VectorT
  | .owned size fillPointer initialElement initialContents =>
    if initialElement.isSome ∧ initialContents.isNil = false then throw .bothInitial
    else if mostPositiveFixnum ≤ size then throw .tooLarge
    else do
      let data ← initialData nil size initialElement initialContents
      let vector ← newVector size fillPointer (.owned data)
      setFillPointerTo fillPointer ⟨vector, []⟩
  | .displaced size fillPointer array offset => do
    checkIndex size mostPositiveFixnum
    checkIndex offset mostPositiveFixnum
    return ⟨← newVector size fillPointer (.displaced offset), array.slots⟩

/-- `vector-push-extend` without an extension where it is compiled, with one, which is a fixnum
and at least 1, or else. -/
inductive Extension
  | compiled
  | given (n : ℤ)
  | one

def Extension.size (capacity : ℕ) : Extension → ℕ
  | .compiled => if capacity < 16 then 16 else capacity
  | .given n => if n < 1 then 1 else n.toNat
  | .one => 1

inductive Operation
  | push (x : LispValue)
  | pushExtend (x : LispValue) (extension : Extension)
  | pop
  | setFillPointer (n : ℕ)
  | aset (i : ℕ) (x : LispValue)
  | adjust (newSize : ℕ) (initialElement : Option LispValue) (initialContents : Option Contents)
    (fillPointer : FillPointer)
  | displace (newSize : ℕ) (array : LispArray) (offset : ℕ) (fillPointer : FillPointer)
  /-- Something else changes the array that the vector is displaced to. -/
  | elsewhere (array : LispArray)

/-- `Vector_T::push` -/
def push (x : LispValue) (s : VectorT) : Result VectorT := do
  checkFillPointer s.vector
  if s.vector.fillPointer < s.vector.capacity then
    return (← pushElement vectorT s (slot x)).1
  else return s

/-- `Vector_T::pop`. The fill pointer is decremented before the element is read. -/
def pop : Op Slot := do
  let s ← get
  ofResult (checkFillPointer s.vector)
  if s.vector.fillPointer > 0 then
    let f := s.vector.fillPointer - 1
    set { s with vector := { s.vector with fillPointer := f } }
    match s.vector.storage with
    | .owned data => ofResult (read data f)
    | .displaced offset => ofResult (arrayAref s.array (f + offset))
  else throw .nothingLeft

/-- `SYS_set_fill_pointer` -/
def setFillPointer (n : ℕ) (s : VectorT) : Result VectorT :=
  if s.vector.hasFillPointer then do
    checkIndex n s.vector.capacity
    setLength n s
  else throw .noFillPointer

/-- `Vector_T::aset` -/
def aset (i : ℕ) (x : LispValue) (s : VectorT) : Result VectorT :=
  if s.vector.capacity ≤ i then throw .badIndex
  else
    match s.vector.storage with
    | .owned data => do
      return { s with vector := { s.vector with storage := .owned (← write data i (slot x)) } }
    | .displaced offset => do
      return { s with array := ← arrayAset s.array (i + offset) (slot x) }

/-- `Vector_T::push_extend` -/
def vectorPushExtend (x : LispValue) (extension : Extension) : Op Unit :=
  leaving (fun s => Prod.fst <$>
      pushExtend vectorT (fun _ => none) s (slot x) (extension.size s.vector.capacity)) fun s =>
    if s.vector.hasFillPointer ∧ s.vector.fillPointer ≥ s.vector.capacity then
      interrupted (newCapacity s.vector.capacity
          (s.vector.fillPointer + extension.size s.vector.capacity)) s.vector.capacity s
    else s

/-- `Vector_T::adjust_vector` -/
def adjustVectorT (nil : LispValue) (newSize : ℕ) (initialElement : LispValue)
    (initialContents : Contents) : Op Unit :=
  if initialContents.isNil then
    leaving (fun s => adjustVector vectorT (fun _ => none) s newSize (slot initialElement))
      fun s => interrupted newSize (min s.vector.capacity newSize) s
  else
    leaving (fun s => do
      let data ← forLoop (fun i data => do
        write data i (slot (← initialContents.get nil i))) newSize 0 (newStorage newSize)
      return adjustedState s newSize data) id

/-- `Vector_T::displace_vector` -/
def displaceVector (newSize : ℕ) (array : LispArray) (offset : ℕ) (s : VectorT) : VectorT where
  vector := { s.vector with
    capacity := newSize
    fillPointer := if s.vector.fillPointer > newSize then newSize else s.vector.fillPointer
    storage := .displaced offset }
  array := array.slots

/-- An operation that changes nothing where it is stopped. -/
def unlessStopped (f : VectorT → Result VectorT) : Op Unit := leaving f id

/-- An operation on a vector. `adjust-array` is `SYS_adjust_array_internal`. -/
def perform (nil : LispValue) : Operation → Op Unit
  | .push x => unlessStopped (push x)
  | .pushExtend x extension => vectorPushExtend x extension
  | .pop => do
    let _ ← pop
    return ()
  | .setFillPointer n => unlessStopped (setFillPointer n)
  | .aset i x => unlessStopped (aset i x)
  | .adjust newSize initialElement initialContents fillPointer => do
    if initialElement.isSome ∧ initialContents.isSome then throw .bothInitial
    ofResult (checkIndex newSize mostPositiveFixnum)
    adjustVectorT nil newSize (initialElement.getD ⟨0, by decide⟩)
      (initialContents.getD (.list []))
    unlessStopped (setFillPointerTo fillPointer)
  | .displace newSize array offset fillPointer => do
    ofResult (checkIndex newSize mostPositiveFixnum)
    ofResult (checkIndex offset mostPositiveFixnum)
    modify (displaceVector newSize array offset)
    unlessStopped (setFillPointerTo fillPointer)
  | .elsewhere array => modify fun s => { s with array := array.slots }

/-- The vector after an operation. After an access outside of the allocated storage there is
none. -/
def step (nil : LispValue) (s : VectorT) (op : Operation) : Option VectorT :=
  match perform nil op s with
  | .ok _ s' => some s'
  | .error .outside _ => none
  | .error _ s' => some s'

end Xcl.Vectors
