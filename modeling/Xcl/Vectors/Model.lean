import Xcl.Lib.Loops

/-!
# Vectors that can grow (`Vector_T`, `Vector_UB8`, `String`)

A vector has storage of its own or is displaced to another array of the same element type. The
model keeps the contents of that array beside the vector, and an element of it is what its `aref`
returns. An access outside of the allocated storage stops an operation, as a signalled error does;
storage that has not been written holds what the allocator left there.
-/

namespace Xcl.Vectors

open Loops

/-- Why an operation stops: a signalled error, a failed assertion, or an access outside of the
allocated storage. -/
inductive Stop
  | noFillPointer
  | badIndex
  | assertion
  | nothingLeft
  | bothInitial
  | tooLarge
  | outside
  deriving DecidableEq

abbrev Result := Except Stop

/-- `_data` or `_chars`, or else `_array` and `_offset` -/
inductive Storage (δ : Type)
  | owned (data : List δ)
  | displaced (offset : ℕ)

structure Vec (δ : Type) where
  capacity : ℕ
  hasFillPointer : Bool
  fillPointer : ℕ
  storage : Storage δ

structure State (δ ε : Type) where
  vector : Vec δ
  array : List ε

variable {δ ε : Type}

/-! ## Storage -/

def read (data : List δ) (i : ℕ) : Result δ := data[i]?.elim (throw .outside) pure

def write (data : List δ) (i : ℕ) (x : δ) : Result (List δ) :=
  if i < data.length then pure (data.set i x) else throw .outside

/-- `_array->aref(i)` -/
def arrayAref (array : List ε) (i : ℕ) : Result ε := array[i]?.elim (throw .badIndex) pure

/-- `_array->aset(i, x)` -/
def arrayAset (array : List ε) (i : ℕ) (x : ε) : Result (List ε) :=
  if i < array.length then pure (array.set i x) else throw .badIndex

/-- What the allocator returns for `n` elements. -/
def malloc (fresh : ℕ → δ) (n : ℕ) : List δ := (List.range n).map fresh

/-- The difference of unsigned words. -/
def unsignedSub (a b : ℕ) : ℕ := (a + (18446744073709551616 - b)) % 18446744073709551616

/-! ## The classes -/

/-- What distinguishes the classes: how an element is stored and read, how it is converted while
the array is copied and where an initial element is stored, what fills the new part of the storage,
how many elements are allocated for a capacity, and how many of them are beyond it. -/
structure Kind (δ ε : Type) where
  store : ε → δ
  load : δ → ε
  copied : ε → δ
  initial : ε → δ
  cleared : δ
  allocated : ℕ → ℕ
  spare : ℕ

variable (K : Kind δ ε) (fresh : ℕ → δ)

def Vec.length (v : Vec δ) : ℕ := if v.hasFillPointer then v.fillPointer else v.capacity

def aref (s : State δ ε) (i : ℕ) : Result ε :=
  if s.vector.capacity ≤ i then throw .badIndex
  else
    match s.vector.storage with
    | .owned data => K.load <$> read data i
    | .displaced offset => arrayAref s.array (i + offset)

def checkFillPointer (v : Vec δ) : Result Unit :=
  if v.hasFillPointer then pure () else throw .noFillPointer

/-- The capacity that growth aims at. -/
def newCapacity (capacity n : ℕ) : ℕ := if capacity * 2 < n then n else capacity * 2

def ensureCapacity (s : State δ ε) (n : ℕ) : Result (State δ ε) :=
  match s.vector.storage with
  | .owned data =>
    if s.vector.capacity < n then do
      let capacity := newCapacity s.vector.capacity n
      let limit := s.vector.length
      let newData ← forLoop (fun i newData => do write newData i (← read data i)) limit 0
        (malloc fresh (K.allocated capacity))
      let newData ← forLoop (fun i newData => write newData i K.cleared)
        (capacity + K.spare - limit) limit newData
      return { s with vector := { s.vector with capacity := capacity, storage := .owned newData } }
    else return s
  | .displaced offset =>
    let rest := unsignedSub s.array.length offset
    if s.vector.capacity < n ∨ rest < n then do
      -- copy array
      let capacity := newCapacity s.vector.capacity n
      let limit := if s.vector.capacity > rest then rest else s.vector.capacity
      let data ← forLoop (fun i data => do
        write data i (K.copied (← arrayAref s.array (i + offset)))) limit 0
        (malloc fresh (K.allocated capacity))
      return { s with vector := { s.vector with capacity := capacity, storage := .owned data } }
    else return s

/-- The end of `push_extend`: the element is stored at the fill pointer, which is returned. -/
def pushElement (s : State δ ε) (x : ε) : Result (State δ ε × ℕ) :=
  let v := s.vector
  if v.fillPointer < v.capacity then
    match v.storage with
    | .owned data => do
      let data ← write data v.fillPointer (K.store x)
      return ({ s with vector := { v with
        fillPointer := v.fillPointer + 1, storage := .owned data } }, v.fillPointer)
    | .displaced offset => do
      let array ← arrayAset s.array (v.fillPointer + offset) x
      return (⟨{ v with fillPointer := v.fillPointer + 1 }, array⟩, v.fillPointer)
  else throw .assertion

def pushExtend (s : State δ ε) (x : ε) (extension : ℕ) : Result (State δ ε × ℕ) := do
  checkFillPointer s.vector
  let s ←
    if s.vector.fillPointer ≥ s.vector.capacity then
      ensureCapacity K fresh s (s.vector.fillPointer + extension)
    else pure s
  pushElement K s x

/-- The storage that `adjust_vector` fills: the elements of the old storage, given by `get`, and
then the initial element. -/
def adjusted (get : ℕ → Result δ) (capacity newCapacity : ℕ) (initialElement : ε) :
    Result (List δ) := do
  let limit := if capacity < newCapacity then capacity else newCapacity
  let data ← forLoop (fun i data => do write data i (← get i)) limit 0
    (malloc fresh (K.allocated newCapacity))
  forLoop (fun i data => write data i (K.initial initialElement)) (newCapacity - capacity) capacity
    data

/-- `adjust_vector`, without initial contents. -/
def adjustVector (s : State δ ε) (newCapacity : ℕ) (initialElement : ε) : Result (State δ ε) := do
  let v := s.vector
  let storage ←
    match v.storage with
    | .displaced offset => do
      let data ← adjusted K fresh (fun i => K.store <$> arrayAref s.array (i + offset)) v.capacity
        newCapacity initialElement
      pure (Storage.owned data)
    | .owned data =>
      if v.capacity ≠ newCapacity then do
        let data ← adjusted K fresh (read data) v.capacity newCapacity initialElement
        pure (Storage.owned data)
      else pure (Storage.owned data)
  return { s with vector := { v with
    capacity := newCapacity
    fillPointer := if v.fillPointer > newCapacity then newCapacity else v.fillPointer
    storage := storage } }

end Xcl.Vectors
