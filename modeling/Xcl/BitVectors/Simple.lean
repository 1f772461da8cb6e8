import Mathlib.Data.Int.Notation
import Xcl.Lib.PackedBits

/-!
# Simple bit vectors

The bits of a `SimpleBitVector` are packed into words of 32 bits; the words are the elements of
`_data`, and the last of them has unused bits unless the capacity is a multiple of 32.

* `BitOp`: the bit-wise operations.
-/

namespace Xcl.BitVectors

/-- The number of words for `capacity` bits. -/
def dataLength (capacity : ℕ) : ℕ :=
  let size := capacity >>> 5
  if capacity &&& 31 ≠ 0 then size + 1 else size

structure SimpleBitVector where
  capacity : ℕ
  data : List (BitVec 32)
  length_data : data.length = dataLength capacity

namespace SimpleBitVector

/-- `new_simple_bit_vector` -/
def new (capacity : ℕ) : SimpleBitVector where
  capacity := capacity
  data := List.replicate (dataLength capacity) 0
  length_data := List.length_replicate

variable (v : SimpleBitVector)

def inlineGetbit (index : ℕ) : Bool :=
  (v.data.getD (index >>> 5) 0 &&& 1#32 <<< (index &&& 31)) != 0

/-- `_data[offset] |= 1 << ..` or `_data[offset] &= ~(1 << ..)` -/
def inlineSetbit (index : ℕ) (bit : Bool) : SimpleBitVector where
  capacity := v.capacity
  data := v.data.modify (index >>> 5) fun word =>
    if bit then word ||| 1#32 <<< (index &&& 31) else word &&& ~~~(1#32 <<< (index &&& 31))
  length_data := by rw [List.length_modify, v.length_data]

def fill (bit : Bool) : SimpleBitVector where
  capacity := v.capacity
  data := List.replicate (dataLength v.capacity) (if bit then 0xffffffff else 0)
  length_data := List.length_replicate

/-- The result has a storage of its own. -/
def reverse : SimpleBitVector :=
  (List.range v.capacity).foldl
    (fun result i => result.inlineSetbit i (v.inlineGetbit (v.capacity - 1 - i))) (new v.capacity)

/-- The loop of `nreverse`. -/
def nreverseLoop (v : SimpleBitVector) (i j : ℕ) : SimpleBitVector :=
  if i < j then
    let temp := v.inlineGetbit i
    let v := v.inlineSetbit i (v.inlineGetbit j)
    nreverseLoop (v.inlineSetbit j temp) (i + 1) (j - 1)
  else v
termination_by j - i

def nreverse : SimpleBitVector :=
  if v.capacity > 0 then nreverseLoop v 0 (v.capacity - 1) else v

/-- A word whose lowest `n` bytes are those of `source`. -/
def copyBytes (n : ℕ) (source target : BitVec 32) : BitVec 32 :=
  let mask := BitVec.ofNat 32 (1 <<< (8 * n) - 1)
  (source &&& mask) ||| (target &&& ~~~mask)

/-- `memcpy`, of `n` bytes; the lowest byte of a word comes first. -/
def memcpy : ℕ → List (BitVec 32) → List (BitVec 32) → List (BitVec 32)
  | n, target :: targets, source :: sources =>
    copyBytes (min n 4) source target :: memcpy (n - 4) targets sources
  | _, targets, _ => targets

@[simp] theorem length_memcpy (n : ℕ) (targets sources : List (BitVec 32)) :
    (memcpy n targets sources).length = targets.length := by
  fun_induction memcpy n targets sources with
  | case1 n target targets source sources ih => simp [ih]
  | case2 => rfl

/-- `copy-simple-bit-vector` copies whole bytes. -/
def copy : SimpleBitVector :=
  let nbytes := v.capacity >>> 3
  let nbytes := if v.capacity &&& 7 ≠ 0 then nbytes + 1 else nbytes
  { capacity := v.capacity
    data := memcpy nbytes (new v.capacity).data v.data
    length_data := by rw [length_memcpy, (new v.capacity).length_data]; rfl }

end SimpleBitVector

/-- The bit-wise operations of two arguments. -/
inductive BitOp
  | and
  | andc1
  | andc2
  | eqv
  | ior
  | nand
  | nor
  | orc1
  | orc2
  | xor
  deriving DecidableEq

/-- The words that the loops store. -/
def BitOp.word : BitOp → BitVec 32 → BitVec 32 → BitVec 32
  | .and, x, y => x &&& y
  | .andc1, x, y => ~~~x &&& y
  | .andc2, x, y => x &&& ~~~y
  | .eqv, x, y => ~~~(x ^^^ y)
  | .ior, x, y => x ||| y
  | .nand, x, y => ~~~(x &&& y)
  | .nor, x, y => ~~~(x ||| y)
  | .orc1, x, y => ~~~x ||| y
  | .orc2, x, y => x ||| ~~~y
  | .xor, x, y => x ^^^ y

/-! ## The Lisp functions -/

inductive Failure
  | notSimpleBitVector
  | badIndex
  | notBit
  | lengthMismatch
  deriving DecidableEq

abbrev Heap := List SimpleBitVector

/-- A vector is given by its place in the heap. -/
abbrev Reference := ℕ

def checkSimpleBitVector (h : Heap) (v : Reference) : Except Failure SimpleBitVector :=
  h[v]?.elim (throw .notSimpleBitVector) pure

def checkBit (value : ℤ) : Except Failure Bool :=
  if value = 0 then pure false else if value = 1 then pure true else throw .notBit

/-- `MOST_POSITIVE_FIXNUM` -/
def arrayDimensionLimit : ℕ := 2305843009213693951

inductive Op
  | makeSimpleBitVector (size : ℕ)
  | setSbit1 (v : Reference) (index : ℕ) (value : ℤ)
  | simpleBitVectorFill (v : Reference) (value : ℤ)
  | copySimpleBitVector (v : Reference)
  | reverse (v : Reference)
  | nreverse (v : Reference)
  | bitNot (v1 v2 : Reference)
  | bitOp (op : BitOp) (v1 v2 v3 : Reference)

/-- The loops read a word of their arguments before they write the word with the same index, so
that the result may be one of the arguments. -/
def combine (h : Heap) (op : BitOp) (v1 v2 v3 : Reference) : Except Failure Heap := do
  let x1 ← checkSimpleBitVector h v1
  let x2 ← checkSimpleBitVector h v2
  let x3 ← checkSimpleBitVector h v3
  if hlength : x1.capacity = x3.capacity ∧ x2.capacity = x3.capacity then
    return h.set v3
      { capacity := x3.capacity
        data := List.zipWith op.word x1.data x2.data
        length_data := by
          rw [List.length_zipWith, x1.length_data, x2.length_data, hlength.1, hlength.2,
            Nat.min_self] }
  else throw .lengthMismatch

def complement (h : Heap) (v1 v2 : Reference) : Except Failure Heap := do
  let x1 ← checkSimpleBitVector h v1
  let x2 ← checkSimpleBitVector h v2
  if hlength : x1.capacity = x2.capacity then
    return h.set v2
      { capacity := x2.capacity
        data := x1.data.map (~~~·)
        length_data := by rw [List.length_map, x1.length_data, hlength] }
  else throw .lengthMismatch

def step (h : Heap) : Op → Except Failure Heap
  | .makeSimpleBitVector size =>
    if size < arrayDimensionLimit then pure (h ++ [.new size]) else throw .badIndex
  | .setSbit1 v index value => do
    let x ← checkSimpleBitVector h v
    if index < x.capacity then return h.set v (x.inlineSetbit index (← checkBit value))
    else throw .badIndex
  | .simpleBitVectorFill v value => do
    let x ← checkSimpleBitVector h v
    return h.set v (x.fill (← checkBit value))
  | .copySimpleBitVector v => do return h ++ [(← checkSimpleBitVector h v).copy]
  | .reverse v => do return h ++ [(← checkSimpleBitVector h v).reverse]
  | .nreverse v => do return h.set v (← checkSimpleBitVector h v).nreverse
  | .bitNot v1 v2 => complement h v1 v2
  | .bitOp op v1 v2 v3 => combine h op v1 v2 v3

/-- A run of functions; one that signals an error leaves the heap as it is. -/
def run (h : Heap) (ops : List Op) : Heap :=
  ops.foldl (fun h op => (step h op).toOption.getD h) h

def simpleBitVectorEqual (h : Heap) (v1 v2 : Reference) : Except Failure Bool := do
  let x1 ← checkSimpleBitVector h v1
  let x2 ← checkSimpleBitVector h v2
  if v1 = v2 then return true
  else if x2.capacity ≠ x1.capacity then return false
  else return x1.data == x2.data

end Xcl.BitVectors
