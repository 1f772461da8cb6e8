import Xcl.HashTable.Cache
import Xcl.HashTable.Refine

/-!
# Mapping over a hash table

`HashTable::maphash` walks the linked lists of all buckets and reads the link of an entry after the
function has been called, which may have changed the table through the methods of its class.

* `Class`: the methods of a class of tables; `chained`, `eqClass`;
* `Change`, `Call`: what the function does to the key it is called with, and reads.
-/

namespace Xcl.HashTable

variable {T κ ν σ : Type}

/-- The methods of a class. `get` may change the cache of a table. -/
structure Class (T κ ν : Type) where
  table : T → Table κ ν
  get : T → κ → Option (T × Option ν)
  put : T → κ → ν → Option T
  remove : T → κ → Option (T × Option ν)

/-- `EqlHashTable` and `EqualHashTable`; and `EqualpHashTable`, which is like the latter with the
functions `equalp_hash` and `equalp`. -/
def chained [DecidableEq κ] (R : Runtime κ) (kind : Kind) : Class (Table κ ν) κ ν where
  table t := t
  get t key := (get R kind t key).map fun value => (t, value)
  put t key value := put R kind t key value
  remove t key := remove R kind t key

/-- `EqHashTable` -/
def eqClass (O : Objects) : Class (EqTable ν) Value ν where
  table t := t.toTable
  get t key := t.get O key
  put t key value := t.put O key value
  remove t key := t.remove O key

/-- Something that the function does with the table: it reads any key, or it stores a value under
the key it has been called with, or removes it. -/
inductive Change (κ ν : Type)
  | gethash (key : κ)
  | puthash (value : ν)
  | remhash

structure Call (κ ν : Type) where
  key : κ
  value : ν
  changes : List (Change κ ν)

/-- What the function does may depend on the whole table and on a state of its own. -/
abbrev Function (T σ κ ν : Type) := T → σ → κ → ν → σ × List (Change κ ν)

namespace Class

variable (C : Class T κ ν)

def change (key : κ) (t : T) : Change κ ν → Option T
  | .gethash other => (C.get t other).map Prod.fst
  | .puthash value => C.put t key value
  | .remhash => (C.remove t key).map Prod.fst

def changes (key : κ) (t : T) (l : List (Change κ ν)) : Option T := l.foldlM (C.change key) t

variable (function : Function T σ κ ν)

/-- `while (e) { function->execute(e->_key, e->_value); e = e->_next; }` -/
def visitChain : ℕ → T → σ → Option ℕ → Option (T × σ × List (Call κ ν))
  | 0, _, _, _ => none
  | _ + 1, t, s, none => some (t, s, [])
  | n + 1, t, s, some a => do
    let e ← (C.table t).heap[a]?
    let (s, l) := function t s e.key e.value
    let t ← C.changes e.key t l
    let (t, s, calls) ← visitChain n t s (← (C.table t).heap[a]?).next
    return (t, s, ⟨e.key, e.value, l⟩ :: calls)

/-- The outer loop, over the buckets from `i - 1` down to `0`. -/
def visitBuckets : ℕ → T → σ → Option (T × σ × List (Call κ ν))
  | 0, t, s => some (t, s, [])
  | i + 1, t, s => do
    let (t, s, calls) ←
      visitChain C function (C.table t).fuel t s (← (C.table t).buckets[i]?)
    let (t, s, calls') ← visitBuckets i t s
    return (t, s, calls ++ calls')

def maphash (t : T) (s : σ) : Option (T × σ × List (Call κ ν)) :=
  visitBuckets C function (C.table t).capacity t s

end Class

/-! ## The specification -/

/-- What a change leaves of the value of its entry, if there is one. -/
def Change.apply : Option ν → Change κ ν → Option ν
  | value, .gethash _ => value
  | _, .puthash value => some value
  | _, .remhash => none

def Call.entry (c : Call κ ν) : κ × ν := (c.key, c.value)

/-- What a call leaves of its entry. -/
def Call.outcome (c : Call κ ν) : Option (κ × ν) :=
  (c.changes.foldl Change.apply (some c.value)).map fun value => (c.key, value)

def VisitsOnce (C : Class T κ ν) (t : T) : Prop :=
  ∀ (σ : Type) (function : Function T σ κ ν) (s : σ),
    ∃ entries t' s' calls entries',
      contents (C.table t) = some entries ∧ C.maphash function t s = some (t', s', calls) ∧
      (calls.map Call.entry).Perm entries.flatten ∧
      contents (C.table t') = some entries' ∧
      entries'.flatten.Perm (calls.filterMap Call.outcome)

/-- No key of the table passes the test against a key that stands before it in its bucket. -/
def FindsOwn [DecidableEq κ] (R : Runtime κ) (kind : Kind) (t : Table κ ν) : Prop :=
  ∀ entries, contents t = some entries → ∀ bucket ∈ entries,
    bucket.Pairwise fun x y => R.found kind y.1 x.1 = false

end Xcl.HashTable
