import Xcl.HashTable.Capacity

/-!
# Symbol tables (`SymbolHashTable`)

The symbols of a package are kept in a vector of slots with open addressing: a symbol sits in the
first suitable slot from its hash code on, cyclically. A removed symbol leaves the marker `DELETED`
behind. An index outside the vector is undefined behaviour, and the operation then has the value
`none`.

* `Name`, `hash`: the name of a symbol and the hash code of a string;
* `probe`: the loop that every operation makes over the slots.
-/

namespace Xcl.SymbolHashTable

open HashTable (calculateInitialCapacity loadThreshold allocated)

/-- The characters of a name; a `BASE_CHAR` has 8 bits. -/
abbrev Name := List (BitVec 8)

/-- One round of the loop of `SimpleString::hash`. -/
def hashChar (hashcode : BitVec 64) (c : BitVec 8) : BitVec 64 :=
  let hashcode := hashcode + c.zeroExtend 64
  let hashcode := hashcode + (hashcode <<< 10)
  hashcode ^^^ hashcode.sshiftRight 6

/-- `SimpleString::hash`, which `String::hash` and `Symbol::hash` agree with on equal names. The
result is cut to a positive fixnum. -/
def hash (name : Name) : ℕ :=
  let hashcode := name.foldl hashChar 0
  let hashcode := hashcode + (hashcode <<< 3)
  let hashcode := hashcode ^^^ hashcode.sshiftRight 11
  let hashcode := hashcode + (hashcode <<< 15)
  hashcode.toNat &&& 2305843009213693951

structure Symbol where
  address : ℕ
  name : Name
  deriving DecidableEq, Repr

inductive Slot
  | null
  | deleted
  | symbol (s : Symbol)
  deriving DecidableEq, Repr

/-- `sym == NULL || sym == DELETED` -/
def Slot.free : Slot → Bool
  | .null => true
  | .deleted => true
  | .symbol _ => false

def Slot.named (name : Name) : Slot → Bool
  | .null => false
  | .deleted => false
  | .symbol s => name == s.name

structure Table where
  buckets : List Slot
  capacity : ℕ
  count : ℕ
  threshold : ℕ
  mask : ℕ
  deriving DecidableEq, Repr

/-- A fresh vector, all `NULL`. -/
def allocBuckets (capacity : ℕ) : List Slot := List.replicate (allocated capacity) .null

/-- `SymbolHashTable::init`; the collector hands out zeroed memory, so `_count` is `0`. -/
def init (size : ℕ) : Option Table := do
  let capacity ← calculateInitialCapacity size
  return {
    buckets := allocBuckets capacity
    capacity := capacity
    count := 0
    threshold := loadThreshold capacity
    mask := capacity - 1 }

/-- The loop over the slots `(index + i) % limit`, for the `n` values of `i` that are left: the
first slot at which the loop stops. -/
def probe (buckets : List Slot) (stop : Slot → Bool) (limit index : ℕ) :
    ℕ → ℕ → Option (Option ℕ)
  | 0, _ => some none
  | n + 1, i => do
    let j := (index + i) % limit
    let sym ← buckets[j]?
    if stop sym then return some j else probe buckets stop limit index n (i + 1)

/-- The loop of an operation on a table, for the symbol of this name. -/
def Table.probe (t : Table) (stop : Slot → Bool) (name : Name) : Option (Option ℕ) :=
  SymbolHashTable.probe t.buckets stop t.capacity (hash name &&& t.mask) t.capacity 0

/-- `get` and `remove` stop at a `NULL` or at a symbol of the name. -/
def findStop (name : Name) (s : Slot) : Bool := s == .null || s.named name

/-- `put` stops at a `NULL`, at a `DELETED` or at a symbol of the name. -/
def putStop (name : Name) (s : Slot) : Bool := s.free || s.named name

/-- `get`; `NULL` is `none`. -/
def get (t : Table) (key : Name) : Option (Option Symbol) := do
  match ← t.probe (findStop key) key with
  | none => return none
  | some j =>
    match ← t.buckets[j]? with
    | .symbol s => return some s
    | _ => return none

/-- The inner loop of `rehash`: puts the symbol into the first free slot of the new vector. -/
def reinsert (newCapacity mask : ℕ) (newBuckets : List Slot) (symbol : Symbol) :
    Option (List Slot) := do
  match ← probe newBuckets Slot.free newCapacity (hash symbol.name &&& mask) newCapacity 0 with
  | none => return newBuckets
  | some k => return newBuckets.set k (.symbol symbol)

/-- The outer loop of `rehash`, over the old slots from `i - 1` down to `0`. -/
def reinsertAll (newCapacity mask : ℕ) (oldBuckets : List Slot) :
    ℕ → List Slot → Option (List Slot)
  | 0, newBuckets => some newBuckets
  | i + 1, newBuckets => do
    match ← oldBuckets[i]? with
    | .symbol s =>
      reinsertAll newCapacity mask oldBuckets i (← reinsert newCapacity mask newBuckets s)
    | _ => reinsertAll newCapacity mask oldBuckets i newBuckets

def rehash (t : Table) : Option Table := do
  let newCapacity := t.capacity * 2
  let mask := newCapacity - 1
  let newBuckets ← reinsertAll newCapacity mask t.buckets t.capacity (allocBuckets newCapacity)
  return {
    buckets := newBuckets
    capacity := newCapacity
    count := t.count
    threshold := loadThreshold newCapacity
    mask := mask }

/-- The loop of `put`. -/
def insert (t : Table) (symbol : Symbol) : Option Table := do
  match ← t.probe (putStop symbol.name) symbol.name with
  | none => return t
  | some j =>
    match ← t.buckets[j]? with
    | .symbol sym =>
      if sym ≠ symbol then
        -- replace existing key
        return { t with buckets := t.buckets.set j (.symbol symbol) }
      else return t
    | _ => return { t with buckets := t.buckets.set j (.symbol symbol), count := t.count + 1 }

def put (t : Table) (symbol : Symbol) : Option Table := do
  if t.count ≥ t.threshold then
    insert (← rehash t) symbol
  else insert t symbol

/-- `remove`, with the symbol it returns. -/
def remove (t : Table) (symbol : Symbol) : Option (Table × Option Symbol) := do
  match ← t.probe (findStop symbol.name) symbol.name with
  | none => return (t, none)
  | some j =>
    match ← t.buckets[j]? with
    | .symbol sym =>
      return ({ t with buckets := t.buckets.set j .deleted, count := t.count - 1 }, some sym)
    | _ => return (t, none)

/-- The operations that change a table. -/
inductive Op
  | put (symbol : Symbol)
  | remove (symbol : Symbol)
  deriving DecidableEq, Repr

/-- One operation. -/
def step (t : Table) : Op → Option Table
  | .put symbol => put t symbol
  | .remove symbol => (remove t symbol).map Prod.fst

/-- A run of operations. -/
def run : Table → List Op → Option Table
  | t, [] => some t
  | t, op :: ops => do run (← step t op) ops

end Xcl.SymbolHashTable
