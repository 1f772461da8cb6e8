import Xcl.MethodCombination.Sort

/-!
# Sorting vectors in place

`sort.lisp`, where the code has no checks of indices. Here an index outside of the vector, and a
loop that does not end in the rounds it is given, have no result.

* `aref`, `setAref`, `rotatef`: the checked accesses;
* **`sort_spec`**: `sort` ends, uses no index outside of the vector, and sorts.
-/

namespace Xcl.Sorting

open MethodCombination (Moves IsOrder)

variable {α κ : Type}

/-! ## The functions -/

/-- `(aref vector i)` -/
def aref (vector : List α) (i : ℤ) : Option α := if 0 ≤ i then vector[i.toNat]? else none

/-- `(setf (aref vector i) x)` -/
def setAref (vector : List α) (i : ℤ) (x : α) : Option (List α) :=
  if 0 ≤ i ∧ i < vector.length then some (vector.set i.toNat x) else none

/-- `(rotatef (aref vector i) (aref vector j))` -/
def rotatef (vector : List α) (i j : ℤ) : Option (List α) := do
  let x ← aref vector i
  let y ← aref vector j
  setAref (← setAref vector i y) j x

section Functions

/- The key is what `apply-key` computes; without a key it is the element. -/
variable (predicate : κ → κ → Bool) (key : α → κ)

/-- The loop that increments `l`. -/
def scanUp (vector : List α) (pivot : κ) (r : ℤ) : ℕ → ℤ → Option ℤ
  | 0, _ => none
  | n + 1, l =>
    if l ≤ r then do
      if predicate (key (← aref vector l)) pivot then scanUp vector pivot r n (l + 1) else return l
    else some l

/-- The loop that decrements `r`. -/
def scanDown (vector : List α) (pivot : κ) (l : ℤ) : ℕ → ℤ → Option ℤ
  | 0, _ => none
  | n + 1, r =>
    if l ≥ r then some r
    else do
      if predicate (key (← aref vector r)) pivot then return r
      else scanDown vector pivot l n (r - 1)

/-- The outer loop of `partition`; the inner ones get as many rounds. -/
def partitionLoop (pivot : κ) (rounds : ℕ) : ℕ → List α → ℤ → ℤ → Option (List α × ℤ)
  | 0, _, _, _ => none
  | n + 1, vector, l, r => do
    let l ← scanUp predicate key vector pivot r rounds l
    let r ← scanDown predicate key vector pivot l rounds r
    if l ≥ r then return (vector, l)
    else partitionLoop pivot rounds n (← rotatef vector l r) l r

def partition (rounds : ℕ) (vector : List α) (left right : ℤ) : Option (List α × ℤ) := do
  let pivot := key (← aref vector right)
  let (vector, l) ← partitionLoop predicate key pivot rounds rounds vector left (right - 1)
  return (← rotatef vector l right, l)

/-- `quicksort`, which calls itself to the given depth. -/
def quicksort (rounds : ℕ) : ℕ → List α → ℤ → ℤ → Option (List α)
  | 0, _, _, _ => none
  | n + 1, vector, left, right =>
    if right ≤ left then some vector
    else do
      let (vector, v) ← partition predicate key rounds vector left right
      quicksort rounds n (← quicksort rounds n vector left (v - 1)) (v + 1) right

def quicksortVector (fuel : ℕ) (vector : List α) : Option (List α) :=
  quicksort predicate key fuel fuel vector 0 (vector.length - 1)

inductive Sequence (α : Type)
  | list (elements : List α)
  | vector (elements : List α)

def Sequence.elements : Sequence α → List α
  | .list elements | .vector elements => elements

/-- The same kind of sequence with other elements. -/
def Sequence.withElements : Sequence α → List α → Sequence α
  | .list _, elements => .list elements
  | .vector _, elements => .vector elements

/-- The loop of `sort` that puts the elements of the vector in the list. -/
def putElements (vector : List α) : List α → ℤ → Option (List α)
  | [], _ => some []
  | _ :: x, i => do return (← aref vector i) :: (← putElements vector x (i + 1))

def sort (fuel : ℕ) : Sequence α → Option (Sequence α)
  | .vector elements => do return .vector (← quicksortVector predicate key fuel elements)
  | .list elements => do
    return .list (← putElements (← quicksortVector predicate key fuel elements) elements 0)

end Functions

/-! ## Vectors and functions of the indices -/

/-- The elements of the vector are the values of `v`. -/
def Reads (vector : List α) (v : ℕ → α) : Prop := ∀ i < vector.length, vector[i]? = some (v i)

variable {vector : List α} {v : ℕ → α} {i j : ℕ}

theorem Reads.aref (h : Reads vector v) (hi : i < vector.length) :
    Sorting.aref vector i = some (v i) := by
  rw [Sorting.aref, if_pos (Int.natCast_nonneg i), Int.toNat_natCast, h i hi]

theorem setAref_eq (hi : i < vector.length) (x : α) :
    setAref vector i x = some (vector.set i x) := by
  rw [setAref, if_pos ⟨Int.natCast_nonneg i, by exact_mod_cast hi⟩, Int.toNat_natCast]

theorem Reads.set (h : Reads vector v) (i : ℕ) (x : α) :
    Reads (vector.set i x) (Function.update v i x) := by
  intro j hj
  rw [List.length_set] at hj
  by_cases hij : i = j
  · rw [← hij, List.getElem?_set_self (hij ▸ hj), Function.update_self]
  · rw [List.getElem?_set_ne hij, Function.update_of_ne (Ne.symm hij), h j hj]

theorem Reads.rotatef (h : Reads vector v) (hi : i < vector.length) (hj : j < vector.length) :
    ∃ vector', Sorting.rotatef vector i j = some vector' ∧ vector'.length = vector.length ∧
      Reads vector' (MethodCombination.rotatef v i j) := by
  refine ⟨(vector.set i (v j)).set j (v i), ?_, by simp, ?_⟩
  · have hj' : j < (vector.set i (v j)).length := by rwa [List.length_set]
    simp only [Sorting.rotatef, h.aref hi, h.aref hj, setAref_eq hi, setAref_eq hj',
      Option.bind_eq_bind, Option.bind_some]
  · have hswap : MethodCombination.rotatef v i j =
        Function.update (Function.update v i (v j)) j (v i) := by
      rw [MethodCombination.rotatef, Equiv.swap_comm, Equiv.comp_swap_eq_update]
    rw [hswap]
    exact (h.set i (v j)).set j (v i)

/-! ## The loops -/

section Loops

variable {predicate : κ → κ → Bool} {key : α → κ} {pivot : α} {n m rounds l r : ℕ}

/-- The predicate on elements. -/
def onKeys (predicate : κ → κ → Bool) (key : α → κ) (x y : α) : Bool := predicate (key x) (key y)

theorem scanUp_reads (h : Reads vector v) (hr : r < vector.length) (hn : r + 1 - l < n) :
    scanUp predicate key vector (key pivot) r n l =
      some ((MethodCombination.scanUp (onKeys predicate key) pivot v r (r + 1 - l) l : ℕ) : ℤ) := by
  induction n generalizing l with
  | zero => omega
  | succ n ih =>
    rw [scanUp]
    by_cases hlr : l ≤ r
    · have hcount : r + 1 - l = r + 1 - (l + 1) + 1 := by omega
      rw [if_pos (by exact_mod_cast hlr), h.aref (by omega), hcount, MethodCombination.scanUp]
      by_cases hp : predicate (key (v l)) (key pivot)
      · have hnext := @ih (l + 1) (by omega)
        rw [Nat.cast_succ] at hnext
        simp only [onKeys, hlr, hp, true_and, if_true, Option.bind_eq_bind, Option.bind_some]
        exact hnext
      · simp [onKeys, hp]
    · have hcount : r + 1 - l = 0 := by omega
      rw [if_neg (by exact_mod_cast hlr), hcount, MethodCombination.scanUp]

theorem scanDown_reads (h : Reads vector v) (hr : r < vector.length) (hn : r - l < n) :
    scanDown predicate key vector (key pivot) l n r =
      some ((MethodCombination.scanDown (onKeys predicate key) pivot v l (r - l) r : ℕ) : ℤ) := by
  induction n generalizing r with
  | zero => omega
  | succ n ih =>
    rw [scanDown]
    by_cases hlr : l ≥ r
    · have hcount : r - l = 0 := by omega
      rw [if_pos (by exact_mod_cast hlr), hcount, MethodCombination.scanDown]
    · have hcount : r - l = r - 1 - l + 1 := by omega
      rw [if_neg (by exact_mod_cast hlr), h.aref hr, hcount, MethodCombination.scanDown]
      by_cases hp : predicate (key (v r)) (key pivot)
      · simp [onKeys, hp]
      · have hnext := @ih (r - 1) (by omega) (by omega)
        rw [Nat.cast_sub (by omega)] at hnext
        simp only [onKeys, hlr, hp, Option.bind_eq_bind, Option.bind_some]
        exact hnext

/-- A result of the code, beside one on functions of the indices. -/
def Agrees (length : ℕ) (result : Option (List α × ℤ)) (expected : (ℕ → α) × ℕ) : Prop :=
  ∃ vector, result = some (vector, (expected.2 : ℤ)) ∧ vector.length = length ∧
    Reads vector expected.1

/-- After an exchange the element at `l` is before the pivot, as in `partitionLoop_spec`. -/
theorem partitionLoop_reads (h : Reads vector v) (hr : r < vector.length)
    (hrounds : vector.length < rounds) (hm : n ≤ m)
    (hn : r - l < n ∨ l < r ∧ r - l ≤ n ∧ onKeys predicate key (v l) pivot = true)
    (hlr : l ≤ r + 1) :
    Agrees vector.length (partitionLoop predicate key (key pivot) rounds m vector l r)
      (MethodCombination.partitionLoop (onKeys predicate key) pivot n v l r) := by
  induction n generalizing vector v l r m with
  | zero => omega
  | succ n ih =>
    obtain ⟨m, rfl⟩ : ∃ m', m = m' + 1 := ⟨m - 1, by omega⟩
    obtain ⟨hup, hup', -, hstop⟩ :=
      MethodCombination.scanUp_spec (onKeys predicate key) pivot v le_rfl hlr
    have hmoved : r - l < n + 1 ∨
        l < MethodCombination.scanUp (onKeys predicate key) pivot v r (r + 1 - l) l := by
      rcases hn with hn | ⟨hlt, -, hp⟩
      · exact .inl hn
      · refine .inr (lt_of_le_of_ne hup fun heq => ?_)
        rw [← heq] at hstop
        rw [hstop hlt.le] at hp
        cases hp
    rw [partitionLoop, scanUp_reads h hr (by omega), MethodCombination.partitionLoop]
    generalize MethodCombination.scanUp (onKeys predicate key) pivot v r (r + 1 - l) l = l' at *
    simp only [Option.bind_eq_bind, Option.bind_some]
    rw [scanDown_reads h hr (by omega)]
    obtain ⟨hdown, hdown', -, hstop'⟩ :=
      MethodCombination.scanDown_spec (onKeys predicate key) pivot v (le_refl (r - l'))
    generalize MethodCombination.scanDown (onKeys predicate key) pivot v l' (r - l') r = r' at *
    simp only [Option.bind_some]
    by_cases hdone : l' ≥ r'
    · rw [if_pos (by exact_mod_cast hdone), if_pos hdone]
      exact ⟨vector, rfl, rfl, h⟩
    · rw [if_neg (by exact_mod_cast hdone), if_neg hdone]
      obtain ⟨vector', hrotatef, hlength, hreads⟩ := @Reads.rotatef α vector v l' r' h (by omega)
        (by omega)
      have hswap : onKeys predicate key (MethodCombination.rotatef v l' r' l') pivot = true := by
        rw [MethodCombination.rotatef, Function.comp_apply, Equiv.swap_apply_left]
        exact hstop'.resolve_left hdone
      simp only [hrotatef, Option.bind_some]
      exact hlength ▸ ih hreads (by omega) (by omega) (by omega)
        (.inr ⟨by omega, by omega, hswap⟩) (by omega)

theorem partition_reads (h : Reads vector v) (hr : r < vector.length)
    (hrounds : vector.length < rounds) (hlr : l < r) :
    Agrees vector.length (partition predicate key rounds vector l r)
      (MethodCombination.partition (onKeys predicate key) v l r) := by
  obtain ⟨vector', hloop, hlength, hreads⟩ := @partitionLoop_reads α κ vector v predicate key (v r)
    (r - l + 1) rounds rounds l (r - 1) h (by omega) hrounds (by omega) (.inl (by omega)) (by omega)
  obtain ⟨σ, m, hspec, -, -, hm, -⟩ := MethodCombination.partitionLoop_spec
    (onKeys predicate key) (v r) v (n := r - l + 1) (l := l) (r := r - 1) (.inl (by omega))
    (by omega)
  rw [hspec] at hloop hreads
  obtain ⟨vector'', hrotatef, hlength', hreads'⟩ := @Reads.rotatef α vector' (v ∘ σ) m r hreads
    (by omega) (by omega)
  rw [Nat.cast_sub (by omega), Nat.cast_one] at hloop
  refine ⟨vector'', ?_, hlength'.trans hlength, ?_⟩
  · rw [partition, h.aref hr, MethodCombination.partition, hspec]
    simp only [Option.bind_eq_bind, Option.bind_some, hloop, hrotatef]
    rfl
  · rw [MethodCombination.partition, hspec]
    exact hreads'

/-- **`quicksort`** has a result, which is that on functions of the indices. -/
theorem quicksort_reads {right : ℤ} (h : Reads vector v) (hr : right < vector.length)
    (hrounds : vector.length < rounds) (hn : right.toNat - l < n) :
    ∃ vector', quicksort predicate key rounds n vector l right = some vector' ∧
      vector'.length = vector.length ∧
      Reads vector' (MethodCombination.quicksort (onKeys predicate key) n v l right.toNat) := by
  induction n generalizing vector v l right with
  | zero => omega
  | succ n ih =>
    rw [quicksort, MethodCombination.quicksort]
    by_cases hle : right ≤ l
    · rw [if_pos hle, if_pos (by omega)]
      exact ⟨vector, rfl, rfl, h⟩
    rw [if_neg hle, if_neg (by omega)]
    obtain ⟨r, rfl⟩ := Int.eq_ofNat_of_zero_le (show 0 ≤ right by omega)
    rw [Int.toNat_natCast] at *
    obtain ⟨vector₁, hpartition, hlength₁, hreads₁⟩ :=
      @partition_reads α κ vector v predicate key rounds l r h (by omega) hrounds (by omega)
    obtain ⟨σ, m, hspec, -, hlm, hm, -⟩ :=
      MethodCombination.partition_spec (onKeys predicate key) v (show l < r by omega)
    rw [hspec] at hpartition hreads₁ ⊢
    obtain ⟨vector₂, hleft, hlength₂, hreads₂⟩ :=
      @ih vector₁ (v ∘ σ) l (m - 1) hreads₁ (by omega) (by omega) (by omega)
    have hpred : ((m : ℤ) - 1).toNat = m - 1 := by omega
    rw [hpred] at hreads₂
    obtain ⟨vector₃, hright, hlength₃, hreads₃⟩ := @ih vector₂ _ (m + 1) r hreads₂ (by omega)
      (by omega) (by omega)
    rw [Int.toNat_natCast] at hreads₃
    refine ⟨vector₃, ?_, by omega, hreads₃⟩
    simp only [hpartition, Option.bind_eq_bind, Option.bind_some, hleft]
    exact hright

theorem putElements_eq {elements : List α} (i : ℕ) (h : i + elements.length = vector.length) :
    putElements vector elements i = some (vector.drop i) := by
  induction elements generalizing i with
  | nil =>
    rw [List.length_nil, add_zero] at h
    rw [putElements, h, List.drop_length]
  | cons x elements ih =>
    rw [List.length_cons] at h
    have hi : i < vector.length := by omega
    have hrest := ih (i + 1) (by omega)
    rw [Nat.cast_succ] at hrest
    rw [putElements, Sorting.aref, if_pos (Int.natCast_nonneg i), Int.toNat_natCast,
      List.getElem?_eq_getElem hi, List.drop_eq_getElem_cons hi]
    simp only [Option.bind_eq_bind, Option.bind_some, hrest]
    rfl

end Loops

/-! ## The theorem -/

variable {predicate : κ → κ → Bool} {key : α → κ} {fuel : ℕ}

structure StrictWeakOrder (predicate : κ → κ → Bool) : Prop where
  irrefl : ∀ a, predicate a a = false
  trans : ∀ a b c, predicate a b = true → predicate b c = true → predicate a c = true
  incomparable : ∀ a b c, predicate a b = false → predicate b a = false →
    predicate b c = false → predicate c b = false → predicate a c = false ∧ predicate c a = false

/-- No element's key is before that of an earlier one. -/
def Sorted (predicate : κ → κ → Bool) (key : α → κ) (elements : List α) : Prop :=
  elements.Pairwise fun x y => predicate (key y) (key x) = false

theorem StrictWeakOrder.isOrder (h : StrictWeakOrder predicate) (key : α → κ) :
    IsOrder (onKeys predicate key) fun _ => True where
  irrefl a _ := h.irrefl (key a)
  trans a b c _ _ _ := h.trans (key a) (key b) (key c)

/-- **`quicksort-vector`** ends, whatever the predicate is. -/
theorem quicksortVector_spec (predicate : κ → κ → Bool) (key : α → κ)
    (hfuel : vector.length < fuel) :
    ∃ vector', quicksortVector predicate key fuel vector = some vector' ∧
      vector'.Perm vector ∧ (StrictWeakOrder predicate → Sorted predicate key vector') := by
  match vector with
  | [] =>
    obtain ⟨n, rfl⟩ : ∃ n, fuel = n + 1 := ⟨fuel - 1, by omega⟩
    exact ⟨[], rfl, .refl _, fun _ => .nil⟩
  | x :: rest =>
    generalize hvector : x :: rest = vector at *
    have hpos : 0 < vector.length := by simp [← hvector]
    have hreads : Reads vector fun i => vector.getD i x := by
      intro i hi
      exact (List.getElem?_eq_getElem hi).trans
        (congrArg some (List.getD_eq_getElem vector x hi).symm)
    obtain ⟨vector', hresult, hlength, hreads'⟩ :=
      @quicksort_reads α κ vector _ predicate key fuel fuel 0 (vector.length - 1) hreads (by omega)
        hfuel (by omega)
    obtain ⟨σ, hspec, hmoves, hsorted⟩ := @MethodCombination.quicksort_ordered α
      (onKeys predicate key) fuel (fun i => vector.getD i x) 0 ((vector.length : ℤ) - 1).toNat
      (by omega)
    have hσ : ∀ i < vector.length, σ i < vector.length := by
      intro i hi
      have hmem := (hmoves.mem (Nat.zero_le i) (by omega)).2
      omega
    rw [hspec] at hreads'
    have hvector' : vector' = (List.range vector.length).map fun i => vector.getD (σ i) x := by
      refine List.ext_getElem? fun i => ?_
      by_cases hi : i < vector.length
      · rw [hreads' i (by omega), List.getElem?_map, List.getElem?_range hi]
        rfl
      · rw [List.getElem?_eq_none (by omega), List.getElem?_eq_none (by simpa using hi)]
    refine ⟨vector', hresult, ?_, fun horder => ?_⟩
    · have hself : (List.range vector.length).map (fun i => vector.getD i x) = vector := by
        refine List.ext_getElem (by simp) fun i hi hi' => ?_
        simp [hi']
      have hmap := (MethodCombination.perm_map_range hσ).map fun i => vector.getD i x
      rw [List.map_map, hself] at hmap
      rw [hvector']
      exact hmap
    · rw [Sorted, hvector', List.pairwise_map]
      refine List.pairwise_lt_range.imp_of_mem fun {i j} _ hj hij => ?_
      have hj' := List.mem_range.mp hj
      exact hsorted _ (horder.isOrder key) (fun _ _ _ => trivial) i j (Nat.zero_le i) hij.le
        (by omega)

/-- **Sorting**: every predicate lets `quicksort-vector` end without an index outside of the vector,
and `sort` sorts by a strict weak order. -/
theorem sort_spec (predicate : κ → κ → Bool) (key : α → κ) :
    (∀ vector fuel, vector.length < fuel →
      ∃ vector', quicksortVector predicate key fuel vector = some vector') ∧
    (StrictWeakOrder predicate → ∀ (sequence : Sequence α) (fuel : ℕ),
      sequence.elements.length < fuel → ∃ elements,
        sort predicate key fuel sequence = some (sequence.withElements elements) ∧
          elements.Perm sequence.elements ∧ Sorted predicate key elements) := by
  refine ⟨fun vector fuel hfuel => ?_, fun horder sequence fuel hfuel => ?_⟩
  · obtain ⟨vector', hvector', -⟩ := quicksortVector_spec predicate key hfuel
    exact ⟨vector', hvector'⟩
  cases sequence with
  | vector elements =>
    obtain ⟨vector', hvector', hperm, hsorted⟩ :=
      @quicksortVector_spec α κ elements fuel predicate key hfuel
    refine ⟨vector', ?_, hperm, hsorted horder⟩
    rw [sort, hvector']
    rfl
  | list elements =>
    obtain ⟨vector', hvector', hperm, hsorted⟩ :=
      @quicksortVector_spec α κ elements fuel predicate key hfuel
    have hput := @putElements_eq α vector' elements 0 ((Nat.zero_add _).trans hperm.length_eq.symm)
    refine ⟨vector', ?_, hperm, hsorted horder⟩
    rw [sort, hvector']
    simp only [Option.bind_eq_bind, Option.bind_some, Nat.cast_zero, List.drop_zero] at hput ⊢
    rw [hput]
    rfl

theorem strictWeakOrder_lt : StrictWeakOrder (· < · : ℕ → ℕ → Bool) := by
  refine ⟨?_, ?_, ?_⟩
  · simp
  · simp only [decide_eq_true_eq]
    exact fun a b c => Nat.lt_trans
  · simp only [decide_eq_false_iff_not]
    omega

theorem sort_spec_lt :
    (∀ (vector : List ℕ) fuel, vector.length < fuel →
      ∃ vector', quicksortVector (· < · : ℕ → ℕ → Bool) id fuel vector = some vector') ∧
    ∃ elements, sort (· < · : ℕ → ℕ → Bool) id 4 (.list [3, 1, 3]) = some (.list elements) ∧
      elements.Perm [3, 1, 3] ∧ Sorted (· < · : ℕ → ℕ → Bool) id elements := by
  obtain ⟨hends, hsorts⟩ := sort_spec (· < · : ℕ → ℕ → Bool) (id : ℕ → ℕ)
  exact ⟨hends, hsorts strictWeakOrder_lt (.list [3, 1, 3]) 4 (by decide)⟩

end Xcl.Sorting
