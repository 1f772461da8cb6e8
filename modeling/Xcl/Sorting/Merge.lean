import Xcl.Lib.ConsCells
import Xcl.Sorting.Quicksort

/-!
# Merging and stable sorting

`merge.lisp`, `stable-sort.lisp`: lists are merged and split by changing the links of their conses.

* `Heap`, `Sequence`: the conses, and the sequences that are sorted;
* `mergeLists`, `merge`, `mergesort`, `stableSort`: the functions. A loop has a number of rounds,
  and `timeout` is what it has without one.
-/

namespace Xcl.Merging

open Sorting (setAref)

variable {α κ : Type}

/-- The conses. Those from `next` on are not in use. -/
structure Heap (α : Type) where
  cells : Cells α
  next : ℕ

/-- A list is given by the address of its first cons, if it has one. -/
inductive Sequence (α : Type)
  | list (link : Option ℕ)
  | vector (elements : List α)

inductive Error
  | timeout
  | notCons
  | badIndex
  | typeError (datum expectedType : ℕ)
  /-- `~S is not a sequence type.` -/
  | notSequenceType

/-- What `subtypep` says of a result type, other than `NULL`. -/
inductive ResultType
  | null
  | list
  | vector
  | other

section Functions

/-- `(rplacd x value)` -/
def rplacd (cells : Cells α) (x : ℕ) (value : Option ℕ) : Cells α :=
  Function.update cells x { cells x with cdr := value }

/-- `(cons x rest)` -/
def cons (heap : Heap α) (x : α) (rest : Option ℕ) : Heap α × Option ℕ :=
  (⟨Function.update heap.cells heap.next ⟨x, rest⟩, heap.next + 1⟩, some heap.next)

/-- The new list of `(coerce vector 'list)`. -/
def listOf (heap : Heap α) : List α → Heap α × Option ℕ
  | [] => (heap, none)
  | x :: elements =>
    let (heap, rest) := listOf heap elements
    cons heap x rest

/-- `(coerce sequence 'list)` -/
def coerceToList (heap : Heap α) : Sequence α → Heap α × Option ℕ
  | .list link => (heap, link)
  | .vector elements => listOf heap elements

/-- The elements of `(coerce list 'vector)`. -/
def elementsOf (cells : Cells α) : ℕ → Option ℕ → Except Error (List α)
  | _, none => .ok []
  | 0, some _ => .error .timeout
  | n + 1, some x => do return (cells x).car :: (← elementsOf cells n (cells x).cdr)

/-- `(length list)` -/
def length (cells : Cells α) : ℕ → Option ℕ → Except Error ℕ
  | _, none => .ok 0
  | 0, some _ => .error .timeout
  | n + 1, some x => do return (← length cells n (cells x).cdr) + 1

/-- `(nthcdr n list)` -/
def nthcdr (cells : Cells α) : ℕ → Option ℕ → Option ℕ
  | 0, link => link
  | _ + 1, none => none
  | n + 1, some x => nthcdr cells n (cells x).cdr

/- The object `NIL`, which the first cons of a merged list has, the predicate, and what `apply-key`
computes. -/
variable (nil : α) (predicate : κ → κ → Bool) (key : α → κ)

/-- The loop of `merge-lists`. -/
def mergeLoop : ℕ → Cells α → Option ℕ → Option ℕ → ℕ → Except Error (Cells α)
  | 0, _, _, _, _ => .error .timeout
  | n + 1, cells, x1, x2, splice =>
    match x1, x2 with
    | some a, some b =>
      if predicate (key (cells b).car) (key (cells a).car) then
        let cells := rplacd cells splice x2
        mergeLoop n cells x1 (cells b).cdr b
      else
        let cells := rplacd cells splice x1
        mergeLoop n cells (cells a).cdr x2 a
    | x1, x2 => .ok (rplacd cells splice (x1.or x2))

def mergeLists (fuel : ℕ) (heap : Heap α) (list1 list2 : Option ℕ) :
    Except Error (Heap α × Option ℕ) := do
  let list := heap.next
  let heap := (cons heap nil none).1
  let cells ← mergeLoop predicate key fuel heap.cells list1 list2 list
  return ({ heap with cells }, (cells list).cdr)

def merge (fuel : ℕ) (heap : Heap α) (resultType : ResultType) (sequence1 sequence2 : Sequence α) :
    Except Error (Heap α × Sequence α) := do
  let (heap, list1) := coerceToList heap sequence1
  let (heap, list2) := coerceToList heap sequence2
  let (heap, mergedList) ← mergeLists nil predicate key fuel heap list1 list2
  match resultType with
  | .null =>
    if mergedList = none then return (heap, .list mergedList) else .error (.typeError 6 0)
  | .list => return (heap, .list mergedList)
  | .vector => return (heap, .vector (← elementsOf heap.cells fuel mergedList))
  | .other => .error .notSequenceType

/-- `mergesort`, which calls itself to the given depth. It calls `merge` with the type `LIST`. -/
def mergesort (fuel : ℕ) : ℕ → Heap α → Option ℕ → ℕ → Except Error (Heap α × Option ℕ)
  | 0, _, _, _ => .error .timeout
  | n + 1, heap, list, length =>
    if length ≤ 1 then .ok (heap, list)
    else
      let length1 := length / 2
      let length2 := length - length1
      match nthcdr heap.cells (length1 - 1) list with
      | none => .error .notCons
      | some last1 => do
        let list2 := (heap.cells last1).cdr
        let heap := { heap with cells := rplacd heap.cells last1 none }
        let (heap, sorted1) ← mergesort fuel n heap list length1
        let (heap, sorted2) ← mergesort fuel n heap list2 length2
        mergeLists nil predicate key fuel heap sorted1 sorted2

def mergesortList (fuel : ℕ) (heap : Heap α) (list : Option ℕ) :
    Except Error (Heap α × Option ℕ) := do
  mergesort nil predicate key fuel fuel heap list (← length heap.cells fuel list)

/-- The loop of `stable-sort` that puts the elements of the list in the vector. -/
def putElements (cells : Cells α) : ℕ → List α → Option ℕ → ℤ → Except Error (List α)
  | _, vector, none, _ => .ok vector
  | 0, _, some _, _ => .error .timeout
  | n + 1, vector, some x, i =>
    match setAref vector i (cells x).car with
    | none => .error .badIndex
    | some vector => putElements cells n vector (cells x).cdr (i + 1)

def stableSort (fuel : ℕ) (heap : Heap α) : Sequence α → Except Error (Heap α × Sequence α)
  | .list list => do
    let (heap, list) ← mergesortList nil predicate key fuel heap list
    return (heap, .list list)
  | .vector elements => do
    let (heap, list) := listOf heap elements
    let (heap, list) ← mergesortList nil predicate key fuel heap list
    return (heap, .vector (← putElements heap.cells fuel elements list 0))

end Functions

/-! ## Sequences of a heap -/

structure IsList (heap : Heap α) (link : Option ℕ) (addresses : List ℕ) : Prop where
  chain : Chain heap.cells link addresses
  nodup : addresses.Nodup
  inUse : ∀ a ∈ addresses, a < heap.next

def Holds (heap : Heap α) (addresses : List ℕ) (elements : List α) : Sequence α → Prop
  | .list link => IsList heap link addresses ∧ elements = heap.cells.elements addresses
  | .vector xs => addresses = [] ∧ elements = xs

/-- Both are lists or both are vectors. -/
def SameKind : Sequence α → Sequence α → Prop
  | .list _, .list _ | .vector _, .vector _ => True
  | _, _ => False

end Xcl.Merging
