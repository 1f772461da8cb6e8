import Xcl.Lib.MapMod
import Xcl.HashTable.Capacity

/-!
# Chained hash tables (`HashTable`, `EqlHashTable`, `EqualHashTable`)

The tables of the kernel keep their entries in singly linked lists hung from a vector of buckets.
The model keeps the entries in a store that only grows; a pointer is an index into it. A null or
dangling pointer that is followed and an index outside the bucket vector are undefined behaviour,
and so is a loop that does not end: the operation then has the value `none`.

* `Runtime`: the hash code and the tests of the kernel, which the tables call.
-/

namespace Xcl.HashTable

/-- A `HashEntry`; `NULL` is `none`. -/
structure HashEntry (κ ν : Type) where
  key : κ
  value : ν
  next : Option ℕ

/-- The functions of the kernel that a table calls. Keys are not mutated, so these are fixed. -/
structure Runtime (κ : Type) where
  hash : κ → ℕ
  eql : κ → κ → Bool
  equal : κ → κ → Bool

/-- The two classes; they differ in the test of their search loops. -/
inductive Kind
  | eql
  | equal
  deriving DecidableEq, Repr

variable {κ ν : Type}

/-- The test of a table. -/
def Runtime.test (R : Runtime κ) : Kind → κ → κ → Bool
  | .eql => R.eql
  | .equal => R.equal

/-- The condition of the search loops. `EqualHashTable` compares the words first. -/
def Runtime.found [DecidableEq κ] (R : Runtime κ) : Kind → κ → κ → Bool
  | .eql, key, k => R.eql key k
  | .equal, key, k => key == k || R.equal key k

/-- A table. The `_test`, `_rehash_size` and `_rehash_threshold` fields are not read by the
operations below. -/
structure Table (κ ν : Type) where
  heap : List (HashEntry κ ν)
  buckets : List (Option ℕ)
  capacity : ℕ
  count : ℕ
  threshold : ℕ
  mask : ℕ

/-! ## Construction -/

/-- A fresh bucket vector, all `NULL`. -/
def allocBuckets (capacity : ℕ) : List (Option ℕ) := List.replicate (allocated capacity) none

/-- `HashTable::init`; the collector hands out zeroed memory, so `_count` is `0`. -/
def init (size : ℕ) : Option (Table κ ν) := do
  let capacity ← calculateInitialCapacity size
  return {
    heap := []
    buckets := allocBuckets capacity
    capacity := capacity
    count := 0
    threshold := loadThreshold capacity
    mask := capacity - 1 }

/-! ## Searching -/

/-- The search loop: the first entry from `e` on whose key satisfies `found`. -/
def lookup (heap : List (HashEntry κ ν)) (found : κ → Bool) : ℕ → Option ℕ → Option (Option ℕ)
  | 0, _ => none
  | _ + 1, none => some none
  | n + 1, some a => do
    let e ← heap[a]?
    if found e.key then return some a else lookup heap found n e.next

/-- Rounds that suffice for every loop over a list of entries. -/
def Table.fuel (t : Table κ ν) : ℕ := t.heap.length + 1

variable [DecidableEq κ] (R : Runtime κ) (kind : Kind)

/-- `get`; `NULL_VALUE` is `none`. -/
def get (t : Table κ ν) (key : κ) : Option (Option ν) := do
  let e ← t.buckets[R.hash key &&& t.mask]?
  match ← lookup t.heap (R.found kind key) t.fuel e with
  | none => return none
  | some a => return some (← t.heap[a]?).value

/-! ## Rehashing -/

/-- `while (dest->_next) dest = dest->_next;` -/
def lastEntry (heap : List (HashEntry κ ν)) : ℕ → ℕ → Option ℕ
  | 0, _ => none
  | n + 1, dest => do
    match (← heap[dest]?).next with
    | none => return dest
    | some dest => lastEntry heap n dest

/-- The inner loop of `rehash1`: moves the entries from `e` on to the end of the lists of the new
buckets, one after the other. -/
def relinkChain (mask : ℕ) :
    ℕ → List (HashEntry κ ν) → List (Option ℕ) → Option ℕ →
      Option (List (HashEntry κ ν) × List (Option ℕ))
  | 0, _, _, _ => none
  | _ + 1, heap, buckets, none => some (heap, buckets)
  | n + 1, heap, buckets, some a => do
    let index := R.hash (← heap[a]?).key &&& mask
    let (heap, buckets) ← match ← buckets[index]? with
      | some dest => do
        let dest ← lastEntry heap (heap.length + 1) dest
        let d ← heap[dest]?
        pure (heap.set dest { d with next := some a }, buckets)
      | none => pure (heap, buckets.set index (some a))
    let e ← heap[a]?
    relinkChain mask n (heap.set a { e with next := none }) buckets e.next

/-- The outer loop of `rehash1`, over the old buckets from `i - 1` down to `0`. -/
def relinkBuckets (mask : ℕ) (oldBuckets : List (Option ℕ)) :
    ℕ → List (HashEntry κ ν) → List (Option ℕ) →
      Option (List (HashEntry κ ν) × List (Option ℕ))
  | 0, heap, buckets => some (heap, buckets)
  | i + 1, heap, buckets => do
    let (heap, buckets) ← relinkChain R mask (heap.length + 1) heap buckets (← oldBuckets[i]?)
    relinkBuckets mask oldBuckets i heap buckets

def rehash1 (t : Table κ ν) : Option (Table κ ν) := do
  let newCapacity := t.capacity * 2
  let mask := newCapacity - 1
  let (heap, buckets) ←
    relinkBuckets R mask t.buckets t.capacity t.heap (allocBuckets newCapacity)
  return {
    heap := heap
    buckets := buckets
    capacity := newCapacity
    count := t.count
    threshold := loadThreshold newCapacity
    mask := mask }

/-! ## Updating -/

def put (t : Table κ ν) (key : κ) (value : ν) : Option (Table κ ν) := do
  let index := R.hash key &&& t.mask
  match ← lookup t.heap (R.found kind key) t.fuel (← t.buckets[index]?) with
  | some a =>
    let e ← t.heap[a]?
    return { t with heap := t.heap.set a { e with value := value } }
  | none =>
    -- Not found. We need to add a new entry.
    let t := { t with count := t.count + 1 }
    let (t, index) ←
      if t.count > t.threshold then do
        let t ← rehash1 R t
        -- Need a new hash value to suit the bigger table.
        pure (t, R.hash key &&& t.mask)
      else pure (t, index)
    let next ← t.buckets[index]?
    return { t with
      heap := t.heap ++ [{ key := key, value := value, next := next }]
      buckets := t.buckets.set index (some t.heap.length) }

/-- The loop of `remove`: unlinks the first entry from `e` on whose key satisfies `found`. -/
def unlink (index : ℕ) (found : κ → Bool) :
    ℕ → Table κ ν → Option ℕ → Option ℕ → Option (Table κ ν × Option ν)
  | 0, _, _, _ => none
  | _ + 1, t, _, none => some (t, none)
  | n + 1, t, last, some a => do
    let e ← t.heap[a]?
    if found e.key then
      match last with
      | none =>
        return ({ t with buckets := t.buckets.set index e.next, count := t.count - 1 },
          some e.value)
      | some l => do
        let d ← t.heap[l]?
        return ({ t with heap := t.heap.set l { d with next := e.next }, count := t.count - 1 },
          some e.value)
    else unlink index found n t (some a) e.next

def remove (t : Table κ ν) (key : κ) : Option (Table κ ν × Option ν) := do
  let index := R.hash key &&& t.mask
  unlink index (R.found kind key) t.fuel t none (← t.buckets[index]?)

def clear (t : Table κ ν) : Table κ ν :=
  { t with buckets := allocBuckets t.capacity, count := 0 }

/-! ## Runs -/

/-- The operations on a table. -/
inductive Op (κ ν : Type)
  | puthash (key : κ) (value : ν)
  | remhash (key : κ)
  | clrhash
  | gethash (key : κ)

/-- One operation. -/
def step (t : Table κ ν) : Op κ ν → Option (Table κ ν)
  | .puthash key value => put R kind t key value
  | .remhash key => (remove R kind t key).map Prod.fst
  | .clrhash => some (clear t)
  | .gethash key => (get R kind t key).map fun _ => t

/-- A run of operations. -/
def run : Table κ ν → List (Op κ ν) → Option (Table κ ν)
  | t, [] => some t
  | t, op :: ops => do run (← step R kind t op) ops

end Xcl.HashTable
