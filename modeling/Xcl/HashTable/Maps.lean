import Xcl.Equality.Coherent
import Xcl.HashTable.Cache
import Xcl.HashTable.Refine

/-!
# Tables as maps

* `FindsLast`: every run on a table finds what was last put;
* **`findsLast_equal`**, **`findsLast_eq`**: so do `equal` tables, and `eq` tables with their cache.
-/

namespace Xcl.HashTable

variable {κ γ ν : Type} {R : Runtime κ} {kind : Kind} {f : κ → γ}

/-- The test and the hash code of a key come from its value under `f`. -/
structure Compares (R : Runtime κ) (kind : Kind) (f : κ → γ) : Prop where
  test : ∀ a b, R.test kind a b = true ↔ f a = f b
  hash : ∀ {a b}, f a = f b → R.hash a = R.hash b

theorem Compares.lawful (h : Compares R kind f) : Lawful R kind where
  test := by constructor <;> simp +contextual [h.test]
  hash hab := h.hash ((h.test _ _).mp hab)

variable [DecidableEq κ] [DecidableEq γ]

/-- An operation on a map from such values. -/
def mapStep (f : κ → γ) (m : γ → Option ν) : Op κ ν → γ → Option ν
  | .puthash key value => Function.update m (f key) (some value)
  | .remhash key => Function.update m (f key) none
  | .clrhash => fun _ => none
  | .gethash _ => m

/-- In every run `gethash` finds what was last put under an equivalent key. -/
def FindsLast (R : Runtime κ) (kind : Kind) (f : κ → γ) (t : Table κ ν) : Prop :=
  ∀ ops, Fits R kind t ops → ∃ t', run R kind t ops = some t' ∧
    ∀ key, get R kind t' key = some (ops.foldl (mapStep f) (fun _ => none) (f key))

theorem Compares.findsLast (h : Compares R kind f) {size : ℕ} (hsize : size ≤ 2 ^ 60) :
    ∃ t : Table κ ν, init size = some t ∧ FindsLast R kind f t := by
  obtain ⟨t, G, ht, hinv⟩ := init_inv hsize
  refine ⟨t, ht, fun ops hfits => ?_⟩
  obtain ⟨t', G', hrun, hinv'⟩ := run_inv h.lawful hinv ops hfits
  refine ⟨t', hrun, fun key => ?_⟩
  have hstep : ∀ (m : γ → Option ν) op,
      specStep R kind (fun key => m (f key)) op = fun key => mapStep f m op (f key) := by
    intro m op
    funext key
    cases op <;>
    simp [specStep, mapStep, MapMod.put, MapMod.remove, Function.update_apply, h.test]
  have hmaps := @List.foldl_hom _ _ _ (fun (m : γ → Option ν) key => m (f key)) _ _ ops
    (fun _ => none) hstep
  rw [get_inv h.lawful hinv'.toShape, hmaps]

/-! ## `equal` tables -/

/-- The keys on which `equal` is right. -/
abbrev SoundKey := {x : Equality.Obj // x.Sound}

/-- What an `EqualHashTable` calls; `eql` is not among it. -/
def soundRuntime : Runtime SoundKey where
  hash key := (Equality.hash key.1).toNat
  eql key k := key == k
  equal key k := Equality.equal key.1 k.1

/-- **An `equal` table** is a map on objects without their addresses. -/
theorem findsLast_equal {size : ℕ} (hsize : size ≤ 2 ^ 60) : ∃ t : Table SoundKey ν,
    init size = some t ∧ FindsLast soundRuntime .equal (·.1.canon) t :=
  have hcompares : Compares soundRuntime .equal (·.1.canon) :=
    ⟨fun a b => Equality.equal_iff_same a.2 b.1,
      fun h => congrArg BitVec.toNat (Equality.hash_eq_of_same h)⟩
  hcompares.findsLast hsize

theorem findsLast_equal_sixteen : ∃ t : Table SoundKey ℕ,
    init 16 = some t ∧ FindsLast soundRuntime .equal (·.1.canon) t :=
  findsLast_equal (by norm_num)

/-! ## `eq` tables -/

theorem answers_run (O : Objects) (t : Table Value ν) (ops : List (Op Value ν)) :
    (answers O t ops).map Prod.fst = run (runtime O) .eql t ops := by
  induction ops generalizing t with
  | nil => rfl
  | cons op ops ih =>
    have hstep : step (runtime O) .eql t op = (answer O t op).map Prod.fst := by
      cases op <;> simp [step, answer, Function.comp_def]
    rw [run, hstep, answers]
    cases answer O t op with
    | none => rfl
    | some x =>
      simp only [Option.map_some, Option.bind_eq_bind, Option.bind_some, ← ih]
      cases answers O x.1 ops <;> rfl

/-- The same for a table with a cache, whose test is `==`. -/
def EqTable.FindsLast (O : Objects) (t : EqTable ν) : Prop :=
  ∀ ops, Fits (runtime O) .eql t.toTable ops → ∃ t' values, t.run O ops = some (t', values) ∧
    ∀ key, (t'.get O key).map Prod.snd = some (ops.foldl (mapStep id) (fun _ => none) key)

/-- **An `eq` table** is a map on words, whatever it has cached. -/
theorem findsLast_eq (O : Objects) {size : ℕ} (hsize : size ≤ 2 ^ 60) :
    ∃ t : EqTable ν, EqTable.new size = some t ∧ t.FindsLast O := by
  have hcompares : Compares (runtime O) .eql id :=
    ⟨fun _ _ => beq_iff_eq, fun h => congrArg (hash O) h⟩
  obtain ⟨T, hT, hfinds⟩ := hcompares.findsLast hsize
  have hnew : EqTable.new size = some (⟨T, 0, 0⟩ : EqTable ν) := by simp [EqTable.new, hT]
  refine ⟨_, hnew, fun ops hfits => ?_⟩
  obtain ⟨T', hrun, hget⟩ := hfinds ops hfits
  obtain ⟨hanswers, hcoherent⟩ := EqTable.run_spec (EqTable.coherent_new hnew) ops
  rw [← answers_run, ← hanswers, Option.map_map, Option.map_eq_some_iff] at hrun
  obtain ⟨⟨t', values⟩, hcached, rfl⟩ := hrun
  refine ⟨t', values, hcached, fun key => ?_⟩
  obtain ⟨_, hindex, htable, -⟩ := EqTable.index_eq (hcoherent t' values hcached) key
  rw [EqTable.get_eq htable hindex, Option.map_map]
  simpa [Function.comp_def] using hget key

theorem findsLast_eq_sixteen :
    ∃ t : EqTable ℕ, EqTable.new 16 = some t ∧ t.FindsLast fun _ => 0 :=
  findsLast_eq _ (by norm_num)

end Xcl.HashTable
