import Xcl.HashTable.Model
import Xcl.Value

/-!
# The one-entry cache of `EqHashTable`

An `EqHashTable` remembers the key of its last search and the index of its bucket. The cache is
written by `get`, `put` and `remove` and dropped by `rehash`, which changes `_mask`; `clear` leaves
it alone. The constructor leaves it at zero, and the word zero is the fixnum zero.

* `Value`, `Objects`, `hash`: keys and their hash codes;
* **`eqTable_run_eq`**: the cache is transparent.
-/

namespace Xcl.HashTable

/-! ## Keys -/

/-- A Lisp value is a word other than `NULL_VALUE`. -/
@[ext] structure Value where
  word : BitVec 64
  word_ne_null : word ≠ nullValue
  deriving DecidableEq

/-- The hash codes of the values that are no fixnums; they come from the contents of the objects,
which do not change here. -/
abbrev Objects := BitVec 64 → ℕ

def mostPositiveFixnum : BitVec 64 := 2305843009213693951

/-- `hash`. The lowtags `0` and `4` are those of fixnums. -/
def hash (O : Objects) (value : Value) : ℕ :=
  if lowtagOf value.word = 0 ∨ lowtagOf value.word = 4 then
    (xlong value.word &&& mostPositiveFixnum).toNat
  else O value.word

/-- The fixnum zero, the word that is also the first value of `_cached_key`. -/
def fixnumZero : Value := ⟨0, by decide⟩

theorem hash_fixnumZero (O : Objects) : hash O fixnumZero = 0 := rfl

/-- What `rehash1` and the table without the cache call. -/
def runtime (O : Objects) : Runtime Value where
  hash := hash O
  eql key k := key == k
  equal key k := key == k

/-! ## The table -/

variable {ν : Type}

/-- An `EqHashTable`. -/
structure EqTable (ν : Type) extends Table Value ν where
  cachedKey : BitVec 64
  cachedIndex : ℕ

namespace EqTable

variable (O : Objects) (t : EqTable ν) (key : Value)

/-- The constructor. The collector hands out zeroed memory. -/
def new (size : ℕ) : Option (EqTable ν) := do
  let t ← init size
  return { t with cachedKey := 0, cachedIndex := 0 }

/-- The index of a key, with which the searches begin. -/
def index : EqTable ν × ℕ :=
  if key.word = t.cachedKey then (t, t.cachedIndex)
  else
    let index := hash O key &&& t.mask
    ({ t with cachedKey := key.word, cachedIndex := index }, index)

def get : Option (EqTable ν × Option ν) := do
  let (t, index) := t.index O key
  match ← lookup t.heap (key == ·) t.fuel (← t.buckets[index]?) with
  | none => return (t, none)
  | some a => return (t, some (← t.heap[a]?).value)

def rehash : Option (EqTable ν) := do
  let t' ← rehash1 (runtime O) t.toTable
  return { t' with cachedKey := nullValue, cachedIndex := t.cachedIndex }

def put (value : ν) : Option (EqTable ν) := do
  let (t, index) := t.index O key
  match ← lookup t.heap (key == ·) t.fuel (← t.buckets[index]?) with
  | some a =>
    let e ← t.heap[a]?
    return { t with heap := t.heap.set a { e with value := value } }
  | none =>
    -- Not found. We need to add a new entry.
    let t := { t with count := t.count + 1 }
    let (t, index) ←
      if t.count > t.threshold then do
        let t ← t.rehash O
        -- Need a new hash value to suit the bigger table.
        let index := hash O key &&& t.mask
        pure ({ t with cachedKey := key.word, cachedIndex := index }, index)
      else pure (t, index)
    let next ← t.buckets[index]?
    return { t with
      heap := t.heap ++ [{ key := key, value := value, next := next }]
      buckets := t.buckets.set index (some t.heap.length) }

def remove : Option (EqTable ν × Option ν) := do
  let (t, index) := t.index O key
  let (t', value) ← unlink index (key == ·) t.fuel t.toTable none (← t.buckets[index]?)
  return ({ t with toTable := t' }, value)

def clear : EqTable ν := { t with toTable := HashTable.clear t.toTable }

/-- One operation, with what it returns. -/
def step : Op Value ν → Option (EqTable ν × Option ν)
  | .puthash key value => (t.put O key value).map fun t => (t, none)
  | .remhash key => t.remove O key
  | .clrhash => some (t.clear, none)
  | .gethash key => t.get O key

def run : EqTable ν → List (Op Value ν) → Option (EqTable ν × List (Option ν))
  | t, [] => some (t, [])
  | t, op :: ops => do
    let (t, value) ← t.step O op
    let (t, values) ← run t ops
    return (t, value :: values)

end EqTable

/-! ## The table without the cache -/

variable (O : Objects)

/-- One operation on a table that computes every index anew. -/
def answer (t : Table Value ν) : Op Value ν → Option (Table Value ν × Option ν)
  | .puthash key value => (put (runtime O) .eql t key value).map fun t => (t, none)
  | .remhash key => remove (runtime O) .eql t key
  | .clrhash => some (clear t, none)
  | .gethash key => (get (runtime O) .eql t key).map fun value => (t, value)

def answers : Table Value ν → List (Op Value ν) → Option (Table Value ν × List (Option ν))
  | t, [] => some (t, [])
  | t, op :: ops => do
    let (t, value) ← answer O t op
    let (t, values) ← answers t ops
    return (t, value :: values)

/-! ## Coherence -/

namespace EqTable

/-- The index kept for a key is the one it has under the present `_mask`. -/
def Coherent (t : EqTable ν) : Prop :=
  ∀ key : Value, key.word = t.cachedKey → t.cachedIndex = hash O key &&& t.mask

variable {O} {t : EqTable ν}

/-- The first key that is looked up may be the one that the cache begins with. -/
theorem coherent_new {size : ℕ} (h : new size = some t) : t.Coherent O := by
  intro key hkey
  simp only [new, Option.bind_eq_bind, Option.bind_eq_some_iff, Option.pure_def,
    Option.some.injEq] at h
  obtain ⟨t₀, -, rfl⟩ := h
  obtain rfl : key = fixnumZero := Value.ext hkey
  simp [hash_fixnumZero]

theorem index_eq (h : t.Coherent O) (key : Value) :
    ∃ t', t.index O key = (t', hash O key &&& t.mask) ∧ t'.toTable = t.toTable ∧ t'.Coherent O := by
  unfold index
  split_ifs with hkey
  · exact ⟨t, by rw [h key hkey], rfl, h⟩
  · refine ⟨_, rfl, rfl, fun k hk => ?_⟩
    obtain rfl : k = key := Value.ext hk
    rfl

@[simp] theorem found_runtime (key : Value) : (runtime O).found .eql key = (key == ·) := rfl

@[simp] theorem hash_runtime : (runtime O).hash = hash O := rfl

theorem get_eq {t' : EqTable ν} {key : Value} (htable : t'.toTable = t.toTable)
    (hindex : t.index O key = (t', hash O key &&& t.mask)) :
    t.get O key = (HashTable.get (runtime O) .eql t.toTable key).map fun value => (t', value) := by
  simp only [get, HashTable.get, hindex, htable, found_runtime, hash_runtime]
  cases t.buckets[hash O key &&& t.mask]? with
  | none => rfl
  | some e =>
    simp only [Option.bind_eq_bind, Option.bind_some]
    cases lookup t.heap (key == ·) t.fuel e with
    | none => rfl
    | some found =>
      cases found with
      | none => rfl
      | some a => cases ha : t.heap[a]? <;> simp [ha]

theorem remove_eq {t' : EqTable ν} {key : Value} (htable : t'.toTable = t.toTable)
    (hindex : t.index O key = (t', hash O key &&& t.mask)) :
    t.remove O key = (HashTable.remove (runtime O) .eql t.toTable key).map fun x =>
      ({ t' with toTable := x.1 }, x.2) := by
  simp only [remove, HashTable.remove, hindex, htable, found_runtime, hash_runtime]
  cases t.buckets[hash O key &&& t.mask]? with
  | none => rfl
  | some e =>
    cases hu : unlink (hash O key &&& t.mask) (key == ·) t.fuel t.toTable none e <;> simp [hu]

theorem coherent_update {t' : EqTable ν} (h : t'.Coherent O) {T : Table Value ν}
    (hmask : T.mask = t'.mask) : { t' with toTable := T }.Coherent O := fun key hkey => by
  rw [hmask]
  exact h key hkey

/-- After a rehash no key is cached, and `put` caches its own. -/
theorem put_spec (h : t.Coherent O) (key : Value) (value : ν) :
    (t.put O key value).map EqTable.toTable =
        HashTable.put (runtime O) .eql t.toTable key value ∧
      ∀ t', t.put O key value = some t' → t'.Coherent O := by
  obtain ⟨t', hindex, htable, hcoh⟩ := index_eq h key
  simp only [put, HashTable.put, hindex, htable, found_runtime, hash_runtime]
  cases t.buckets[hash O key &&& t.mask]? with
  | none => exact ⟨rfl, fun _ h => by cases h⟩
  | some e =>
    simp only [Option.bind_eq_bind, Option.bind_some]
    cases lookup t.heap (key == ·) t.fuel e with
    | none => exact ⟨rfl, fun _ h => by cases h⟩
    | some found =>
      cases found with
      | some a =>
        cases ha : t.heap[a]? with
        | none => exact ⟨by simp [ha], by simp [ha]⟩
        | some e =>
          simp only [ha, Option.bind_some]
          refine ⟨rfl, ?_⟩
          rintro _ ⟨⟩
          exact coherent_update hcoh (by rw [htable])
      | none =>
        simp only [Option.bind_some]
        split_ifs with hthreshold
        · simp only [rehash]
          cases rehash1 (runtime O) { t.toTable with count := t.count + 1 } with
          | none => exact ⟨rfl, fun _ h => by cases h⟩
          | some T =>
            simp only [Option.bind_eq_bind, Option.bind_some, Option.pure_def]
            cases T.buckets[hash O key &&& T.mask]? with
            | none => exact ⟨rfl, fun _ h => by cases h⟩
            | some next =>
              refine ⟨rfl, ?_⟩
              rintro _ ⟨⟩ k hk
              obtain rfl : k = key := Value.ext hk
              rfl
        · simp only [Option.pure_def, Option.bind_some]
          cases t.buckets[hash O key &&& t.mask]? with
          | none => exact ⟨rfl, fun _ h => by cases h⟩
          | some next =>
            refine ⟨rfl, ?_⟩
            rintro _ ⟨⟩
            exact coherent_update hcoh (by rw [htable])

omit O in
theorem unlink_mask {index : ℕ} {found : Value → Bool} {T T' : Table Value ν} {last : Option ℕ}
    {value : Option ν} {n : ℕ} {e : Option ℕ}
    (h : unlink index found n T last e = some (T', value)) : T'.mask = T.mask := by
  induction n generalizing last e with
  | zero => cases h
  | succ n ih =>
    cases e with
    | none => cases h; rfl
    | some a =>
      obtain ⟨e, -, h⟩ := Option.bind_eq_some_iff.mp h
      split_ifs at h
      · cases last with
        | none => cases h; rfl
        | some l =>
          obtain ⟨d, -, h⟩ := Option.bind_eq_some_iff.mp h
          cases h
          rfl
      · exact ih h

omit O in
theorem remove_mask {T T' : Table Value ν} {R : Runtime Value} {kind : Kind} {key : Value}
    {value : Option ν} (h : HashTable.remove R kind T key = some (T', value)) :
    T'.mask = T.mask := by
  obtain ⟨e, -, h⟩ := Option.bind_eq_some_iff.mp h
  exact unlink_mask h

/-- **One operation** returns and leaves what it does without the cache. -/
theorem step_spec (h : t.Coherent O) (op : Op Value ν) :
    (t.step O op).map (fun x => (x.1.toTable, x.2)) = answer O t.toTable op ∧
      ∀ t' value, t.step O op = some (t', value) → t'.Coherent O := by
  cases op with
  | puthash key value =>
    obtain ⟨heq, hcoh⟩ := put_spec h key value
    refine ⟨by simp [step, answer, ← heq, Function.comp_def], fun t' v ht' => ?_⟩
    obtain ⟨t₁, ht₁, ⟨⟩⟩ := Option.map_eq_some_iff.mp ht'
    exact hcoh _ ht₁
  | remhash key =>
    obtain ⟨t', hindex, htable, hcoh⟩ := index_eq h key
    have heq := remove_eq htable hindex
    refine ⟨by simp [step, answer, heq, Function.comp_def], fun t₁ v ht₁ => ?_⟩
    obtain ⟨⟨T, v'⟩, hT, ⟨⟩⟩ := Option.map_eq_some_iff.mp (heq.symm.trans ht₁)
    exact coherent_update hcoh (by rw [remove_mask hT, htable])
  | clrhash => exact ⟨rfl, by rintro _ _ ⟨⟩; exact h⟩
  | gethash key =>
    obtain ⟨t', hindex, htable, hcoh⟩ := index_eq h key
    have heq := get_eq htable hindex
    refine ⟨by simp [step, answer, heq, htable, Function.comp_def], fun t₁ v ht₁ => ?_⟩
    obtain ⟨v', -, ⟨⟩⟩ := Option.map_eq_some_iff.mp (heq.symm.trans ht₁)
    exact hcoh

/-- **A run** returns and leaves what it does without the cache. -/
theorem run_spec (h : t.Coherent O) (ops : List (Op Value ν)) :
    (t.run O ops).map (fun x => (x.1.toTable, x.2)) = answers O t.toTable ops ∧
      ∀ t' values, t.run O ops = some (t', values) → t'.Coherent O := by
  induction ops generalizing t with
  | nil => exact ⟨rfl, by rintro _ _ ⟨⟩; exact h⟩
  | cons op ops ih =>
    obtain ⟨heq, hcoh⟩ := step_spec h op
    simp only [run, answers, ← heq]
    cases hstep : t.step O op with
    | none => exact ⟨rfl, fun _ _ h => by cases h⟩
    | some x =>
      obtain ⟨ihrun, ihcoh⟩ := ih (hcoh x.1 x.2 hstep)
      simp only [Option.bind_eq_bind, Option.bind_some, Option.map_some, ← ihrun]
      cases hrun : x.1.run O ops with
      | none => exact ⟨rfl, fun _ _ h => by cases h⟩
      | some y =>
        refine ⟨rfl, ?_⟩
        rintro _ _ ⟨⟩
        exact ihcoh y.1 y.2 hrun

end EqTable

/-- **The cache is transparent**: every run from a new table returns what it returns without the
cached key and index, and leaves the same table; and the index cached for a key is always that of
its hash code under the present `_mask`. -/
theorem eqTable_run_eq (O : Objects) (size : ℕ) (ops : List (Op Value ν)) :
    ((EqTable.new size).bind fun t => t.run O ops).map (fun x => (x.1.toTable, x.2)) =
        ((init size).bind fun t => answers O t ops) ∧
      ∀ t t' : EqTable ν, ∀ values, EqTable.new size = some t → t.run O ops = some (t', values) →
        ∀ key : Value, key.word = t'.cachedKey → t'.cachedIndex = hash O key &&& t'.mask := by
  have hnew : (EqTable.new size : Option (EqTable ν)).map EqTable.toTable = init size := by
    simp [EqTable.new]
  refine ⟨?_, fun t t' values ht hrun =>
    (EqTable.run_spec (EqTable.coherent_new ht) ops).2 t' values hrun⟩
  rw [← hnew]
  cases ht : (EqTable.new size : Option (EqTable ν)) with
  | none => rfl
  | some t => exact (EqTable.run_spec (EqTable.coherent_new ht) ops).1

end Xcl.HashTable
