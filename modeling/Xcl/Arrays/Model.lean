import Xcl.Lib.MixedRadix

/-!
# Arrays of general elements

* `Value`: elements, and the lists and vectors that initial contents consist of.

`INDEX` and `unsigned long` have 64 bits, and a rank is an `unsigned int`. An access outside of the
storage of an array is undefined, here a `Failure` of its own.
-/

namespace Xcl.Arrays

inductive Value
  | object (id : ℕ)
  | sequence (elements : List Value)

inductive Failure
  /-- A dimension or a row-major index outside of its range. -/
  | index (value : ℤ)
  | notSequence
  | badInitialContents
  | wrongNumberOfSubscripts (nsubs rank : ℕ)
  | invalidIndex (subscript : ℕ)
  /-- The access is outside of the storage. -/
  | overrun
  deriving DecidableEq

/-- A `SimpleArray_T` -/
structure SimpleArray where
  dimensions : List ℕ
  totalSize : ℕ
  data : List Value

def mostPositiveFixnum : ℤ := 2305843009213693951

/-- The arguments of `%make-array` that say what is stored at first. -/
inductive Initial
  | contents (contents : Value)
  | element (element : Value)

/-! ## Making arrays -/

def computeTotalSize (dimensions : List ℕ) : ℕ :=
  dimensions.foldr (fun dim size => size * dim % 2 ^ 64) 1

/-- Storage of `_total_size * sizeof(Value)` bytes. -/
def allocate (totalSize : ℕ) : List Value :=
  List.replicate (totalSize * 8 % 2 ^ 64 / 8) (.object 0)

def store (data : List Value) (index : ℕ) (value : Value) : Except Failure (List Value) :=
  if index < data.length then .ok (data.set index value) else .error .overrun

/-- `for (unsigned long i = _total_size; i-- > 0;) _data[i] = initial_element;` -/
def fill (element : Value) : ℕ → List Value → Except Failure (List Value)
  | 0, data => .ok data
  | i + 1, data => do fill element i (← store data i element)

def setInitialContents (totalSize : ℕ) :
    List ℕ → Value → List Value × ℕ → Except Failure (List Value × ℕ)
  | [], contents, (data, index) =>
    if index < totalSize then do return (← store data index contents, index + 1)
    else .error .badInitialContents
  | _ :: _, .object _, _ => .error .notSequence
  | dim :: dims, .sequence elements, s =>
    if dim ≠ elements.length then .error .badInitialContents
    else elements.foldlM (fun s content => setInitialContents totalSize dims content s) s

/-- The constructor. -/
def SimpleArray.new (dimensions : List ℕ) (initial : Initial) : Except Failure SimpleArray := do
  let totalSize := computeTotalSize dimensions
  let data ← match initial with
    | .contents contents => do
      let (data, _) ← setInitialContents totalSize dimensions contents (allocate totalSize, 0)
      pure data
    | .element element => fill element totalSize (allocate totalSize)
  return ⟨dimensions, totalSize, data⟩

def checkIndex (value : ℤ) : Except Failure ℕ :=
  if 0 ≤ value ∧ value ≤ mostPositiveFixnum then .ok value.toNat else .error (.index value)

def makeArray (dimensions : List ℤ) (initial : Initial) : Except Failure SimpleArray := do
  SimpleArray.new (← dimensions.mapM checkIndex) initial

/-! ## Subscripts -/

namespace SimpleArray

variable (a : SimpleArray)

def rank : ℕ := a.dimensions.length % 2 ^ 32

/-- The loop, over the dimensions with their subscripts from the last one down. -/
def rowMajorLoop : List (ℕ × ℕ) → ℕ → ℕ → Except Failure ℕ
  | [], sum, _ => .ok sum
  | (dim, n) :: rest, sum, size =>
    if n ≥ dim then .error (.invalidIndex n)
    else rowMajorLoop rest ((sum + n * size) % 2 ^ 64) (size * dim % 2 ^ 64)

/-- `row_major_index`; the number of subscripts is an `unsigned int` too. -/
def rowMajorIndex (subscripts : List ℕ) : Except Failure ℕ :=
  let nsubs := subscripts.length % 2 ^ 32
  if nsubs ≠ a.rank then .error (.wrongNumberOfSubscripts nsubs a.rank)
  else rowMajorLoop ((a.dimensions.zip subscripts).take a.rank).reverse 0 1

def aref (subscripts : List ℕ) : Except Failure Value := do
  let index ← a.rowMajorIndex subscripts
  if index < a.totalSize then a.data[index]?.elim (.error .overrun) .ok else .error (.index index)

def aset (subscripts : List ℕ) (value : Value) : Except Failure SimpleArray := do
  let index ← a.rowMajorIndex subscripts
  if index < a.totalSize then return { a with data := ← store a.data index value }
  else .error (.index index)

end SimpleArray

end Xcl.Arrays
