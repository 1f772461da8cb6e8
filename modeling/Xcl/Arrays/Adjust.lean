import Mathlib.Data.List.GetD
import Xcl.Arrays.Addresses

/-!
# Adjusting arrays

* `copyArray1`, `copyArray`, `adjustArray`: the arrays live on a heap, and the subscripts are one
  vector that all axes share;
* **`adjusted_iff`**: when an array is adjusted so.

The rank of an array is an `unsigned int`, and `copy_array_1` takes it for an `int`.
-/

namespace Xcl.Arrays

open MixedRadix Loops

abbrev Heap := List SimpleArray

namespace SimpleArray

variable (a : SimpleArray)

def dimension (n : ℕ) : Except Failure ℕ :=
  if n < a.rank then a.dimensions[n]?.elim (.error .overrun) .ok else .error (.index n)

def rowMajorAref (index : ℕ) : Except Failure Value :=
  if index < a.totalSize then a.data[index]?.elim (.error .overrun) .ok else .error (.index index)

def rowMajorAset (index : ℕ) (value : Value) : Except Failure SimpleArray := do
  if index < a.totalSize then return { a with data := ← store a.data index value }
  else .error (.index index)

end SimpleArray

def Heap.get (heap : Heap) (p : ℕ) : Except Failure SimpleArray :=
  heap[p]?.elim (.error .overrun) .ok

/-- `copy_array_1`, with the number of axes from `axis` on, which is `0` for a negative rank. -/
def copyArray1 (p₁ p₂ : ℕ) : ℕ → ℕ → Heap × List ℕ → Except Failure (Heap × List ℕ)
  | 0, _, (heap, subscripts) => do
    let a₁ ← heap.get p₁
    let a₂ ← heap.get p₂
    let i₁ ← a₁.rowMajorIndex subscripts
    let i₂ ← a₂.rowMajorIndex subscripts
    let value ← a₁.rowMajorAref i₁
    return (heap.set p₂ (← a₂.rowMajorAset i₂ value), subscripts)
  | axes + 1, axis, (heap, subscripts) => do
    let d₁ ← (← heap.get p₁).dimension axis
    let d₂ ← (← heap.get p₂).dimension axis
    let limit := if d₁ < d₂ then d₁ else d₂
    forLoop (fun i s => copyArray1 p₁ p₂ axes (axis + 1) (s.1, s.2.set axis i)) limit 0
      (heap, subscripts)

/-- The axes of an array for `copy_array_1`, which takes the `unsigned int` for an `int`: a rank
that becomes negative leaves none. -/
def intAxes (rank : ℕ) : ℕ := if rank < 2 ^ 31 then rank else 0

/-- `copy_array`, for two arrays of the same rank. -/
def copyArray (p₁ p₂ : ℕ) (heap : Heap) : Except Failure Heap := do
  let rank := (← heap.get p₁).rank
  let (heap, _) ← copyArray1 p₁ p₂ (intAxes rank) 0 (heap, List.replicate rank 0)
  return heap

/-- `adjust_array`: the heap, and the place of the result. Without initial contents they are
`NIL`. -/
def adjustArray (heap : Heap) (p : ℕ) (dims : List ℕ) (initialElement : Value)
    (initialContents : Option Value) : Except Failure (Heap × ℕ) := do
  let a ← heap.get p
  match initialContents with
  | some contents => return (heap ++ [← SimpleArray.new dims (.contents contents)], heap.length)
  | none =>
    -- the loop that looks for a dimension that is not the old one
    if a.dimensions.take dims.length = dims then return (heap, p)
    else do
      let array ← SimpleArray.new dims (.element initialElement)
      return (← copyArray p heap.length (heap ++ [array]), heap.length)

/-! ## Elements -/

namespace SimpleArray

variable {a : SimpleArray} {subs : List ℕ}

structure Exact (a : SimpleArray) : Prop where
  stored : a.Stored
  rank : a.dimensions.length < 2 ^ 32
  prod : a.dimensions.prod < 2 ^ 64

theorem Exact.addresses (h : a.Exact) : Addresses a := addresses_of_lt h.stored h.rank h.prod

theorem Exact.rank_eq (h : a.Exact) : a.rank = a.dimensions.length := SimpleArray.rank_eq h.rank

theorem Exact.dimension (h : a.Exact) {n : ℕ} (hn : n < a.dimensions.length) :
    a.dimension n = .ok a.dimensions[n] := by
  rw [SimpleArray.dimension, h.rank_eq, if_pos hn, List.getElem?_eq_getElem hn]
  rfl

theorem aref_def : a.aref subs = a.rowMajorIndex subs >>= a.rowMajorAref := rfl

theorem aset_def (value : Value) :
    a.aset subs value = a.rowMajorIndex subs >>= (a.rowMajorAset · value) := rfl

end SimpleArray

theorem Heap.get_of_getElem? {heap : Heap} {p : ℕ} {a : SimpleArray} (h : heap[p]? = some a) :
    heap.get p = .ok a := by
  rw [Heap.get, h]
  rfl

/-- The elements of `a₁` with subscripts in `D` are those of `a₂'`, and the others are as they were
in `a₂`. -/
structure Copied (a₁ a₂ a₂' : SimpleArray) (D : Set (List ℕ)) : Prop where
  exact : a₂'.Exact
  dimensions : a₂'.dimensions = a₂.dimensions
  copied : ∀ subs ∈ D, Below subs a₁.dimensions → Below subs a₂.dimensions →
    a₂'.aref subs = a₁.aref subs
  kept : ∀ subs, Below subs a₂.dimensions → ¬(subs ∈ D ∧ Below subs a₁.dimensions) →
    a₂'.aref subs = a₂.aref subs

namespace Copied

variable {a₁ a₂ a₂' a₂'' : SimpleArray} {D D' : Set (List ℕ)}

theorem refl (h : a₂.Exact) : Copied a₁ a₂ a₂ ∅ :=
  ⟨h, rfl, fun _ hmem => absurd hmem (Set.notMem_empty _), fun _ _ _ => rfl⟩

theorem trans (h : Copied a₁ a₂ a₂' D) (h' : Copied a₁ a₂' a₂'' D') :
    Copied a₁ a₂ a₂'' (D ∪ D') := by
  refine ⟨h'.exact, h'.dimensions.trans h.dimensions, fun subs hmem h₁ h₂ => ?_,
    fun subs h₂ hnot => ?_⟩
  · have h₂' : Below subs a₂'.dimensions := h.dimensions ▸ h₂
    by_cases hlast : subs ∈ D'
    · exact h'.copied subs hlast h₁ h₂'
    · rw [h'.kept subs h₂' fun hno => hlast hno.1]
      exact h.copied subs (hmem.resolve_right hlast) h₁ h₂
  · rw [h'.kept subs (h.dimensions ▸ h₂) fun hno => hnot ⟨Or.inr hno.1, hno.2⟩]
    exact h.kept subs h₂ fun hno => hnot ⟨Or.inl hno.1, hno.2⟩

theorem congr (h : Copied a₁ a₂ a₂' D) (hD : ∀ subs, Below subs a₁.dimensions →
    Below subs a₂.dimensions → (subs ∈ D ↔ subs ∈ D')) : Copied a₁ a₂ a₂' D' :=
  ⟨h.exact, h.dimensions, fun subs hmem h₁ h₂ => h.copied subs ((hD subs h₁ h₂).mpr hmem) h₁ h₂,
    fun subs h₂ hnot => h.kept subs h₂ fun hno => hnot ⟨(hD subs hno.2 h₂).mp hno.1, hno.2⟩⟩

end Copied

section

variable {a₁ a₂ : SimpleArray} {heap : Heap} {p₁ p₂ : ℕ} {subs : List ℕ}

theorem copyArray1_zero (h₁ : a₁.Exact) (h₂ : a₂.Exact) (hp₁ : heap[p₁]? = some a₁)
    (hp₂ : heap[p₂]? = some a₂) (hsubs₁ : Below subs a₁.dimensions)
    (hsubs₂ : Below subs a₂.dimensions) (axis : ℕ) :
    ∃ a₂', copyArray1 p₁ p₂ 0 axis (heap, subs) = .ok (heap.set p₂ a₂', subs) ∧
      Copied a₁ a₂ a₂' {subs} := by
  obtain ⟨i₁, hlt₁, hi₁⟩ := h₁.addresses.lt subs hsubs₁
  obtain ⟨i₂, hlt₂, hi₂⟩ := h₂.addresses.lt subs hsubs₂
  obtain ⟨hdata, haref⟩ := SimpleArray.aref_eq h₁.stored hi₁ hlt₁
  have haset := SimpleArray.aset_eq h₂.stored hi₂ hlt₂ a₁.data[i₁]
  obtain ⟨a₂', haset', hother⟩ := h₂.addresses.aset subs a₁.data[i₁] hsubs₂
  obtain rfl := Except.ok.inj (haset.symm.trans haset')
  have hexact : SimpleArray.Exact { a₂ with data := a₂.data.set i₂ a₁.data[i₁] } :=
    ⟨⟨h₂.stored.1, h₂.stored.2.trans_eq List.length_set.symm⟩, h₂.rank, h₂.prod⟩
  refine ⟨_, ?_, hexact, rfl, ?_, fun subs' hsubs' hnot => ?_⟩
  · have hread : a₁.rowMajorAref i₁ = .ok a₁.data[i₁] := by
      rwa [SimpleArray.aref_def, hi₁] at haref
    have hwrite : a₂.rowMajorAset i₂ a₁.data[i₁] =
        .ok { a₂ with data := a₂.data.set i₂ a₁.data[i₁] } := by
      rwa [SimpleArray.aset_def, hi₂] at haset
    simp only [copyArray1, Heap.get_of_getElem? hp₁, Heap.get_of_getElem? hp₂, hi₁, hi₂, hread,
      hwrite, bind, Except.bind]
    rfl
  · rintro _ rfl - -
    rw [hother _ hsubs₂, if_pos rfl, haref]
  · rw [hother _ hsubs', if_neg]
    rintro rfl
    exact hnot ⟨rfl, hsubs₁⟩

theorem take_succ_eq_iff {l l' : List ℕ} {k : ℕ} (h : k < l.length) (h' : k < l'.length) :
    l.take (k + 1) = l'.take (k + 1) ↔ l.take k = l'.take k ∧ l[k] = l'[k] := by
  rw [List.take_succ_eq_append_getElem h, List.take_succ_eq_append_getElem h']
  constructor
  · intro heq
    obtain ⟨htake, hlast⟩ := List.append_inj' heq rfl
    exact ⟨htake, List.singleton_inj.mp hlast⟩
  · rintro ⟨htake, hlast⟩
    rw [htake, hlast]

theorem below_take_succ {subs dims : List ℕ} {k : ℕ} (h : k < subs.length)
    (h' : k < dims.length) (htake : Below (subs.take k) (dims.take k)) (hlt : subs[k] < dims[k]) :
    Below (subs.take (k + 1)) (dims.take (k + 1)) := by
  rw [List.take_succ_eq_append_getElem h, List.take_succ_eq_append_getElem h']
  exact List.rel_append htake (.cons hlt .nil)

/-- The subscripts that begin like the shared ones. -/
def Begun (subscripts : List ℕ) (axis : ℕ) : Set (List ℕ) :=
  {subs | subs.take axis = subscripts.take axis}

theorem mem_begun {t : List ℕ} {axis : ℕ} :
    t ∈ Begun subs axis ↔ t.take axis = subs.take axis := Iff.rfl

/-- The loop over one axis, before round `j`. -/
def CopiedBelow (a₁ a₂ : SimpleArray) (heap : Heap) (p₂ : ℕ) (subs : List ℕ) (axis j : ℕ)
    (s : Heap × List ℕ) : Prop :=
  ∃ a₂', s.1 = heap.set p₂ a₂' ∧
    Copied a₁ a₂ a₂' {t | t ∈ Begun subs axis ∧ t.getD axis 0 < j} ∧
    s.2.length = subs.length ∧ s.2.take axis = subs.take axis

theorem copiedBelow_zero (h₂ : a₂.Exact) (hp₂ : heap[p₂]? = some a₂) (axis : ℕ) :
    CopiedBelow a₁ a₂ heap p₂ subs axis 0 (heap, subs) := by
  obtain ⟨hlt, heq⟩ := List.getElem?_eq_some_iff.mp hp₂
  refine ⟨a₂, ?_, (Copied.refl h₂).congr fun t _ _ => ?_, rfl, rfl⟩
  · rw [← heq, List.set_getElem_self]
  · exact ⟨fun hno => absurd hno (Set.notMem_empty t), fun hno => absurd hno.2 (Nat.not_lt_zero _)⟩

/-- **One axis** copies the elements whose subscripts begin with those chosen before. -/
theorem copyArray1_ok (h₁ : a₁.Exact) (hne : p₁ ≠ p₂)
    (hrank : a₂.dimensions.length = a₁.dimensions.length) {axes axis : ℕ}
    (haxes : axis + axes = a₁.dimensions.length) (h₂ : a₂.Exact) (hp₁ : heap[p₁]? = some a₁)
    (hp₂ : heap[p₂]? = some a₂) (hlength : subs.length = a₁.dimensions.length)
    (hsubs₁ : Below (subs.take axis) (a₁.dimensions.take axis))
    (hsubs₂ : Below (subs.take axis) (a₂.dimensions.take axis)) :
    ∃ a₂' subs', copyArray1 p₁ p₂ axes axis (heap, subs) = .ok (heap.set p₂ a₂', subs') ∧
      Copied a₁ a₂ a₂' (Begun subs axis) ∧ subs'.length = subs.length ∧
      subs'.take axis = subs.take axis := by
  induction axes generalizing axis heap subs a₂ with
  | zero =>
    have htake : ∀ l : List ℕ, l.length = a₁.dimensions.length → l.take axis = l := by
      intro l hl
      exact List.take_of_length_le (by omega)
    rw [htake subs hlength, htake _ rfl] at hsubs₁
    rw [htake subs hlength, htake _ hrank] at hsubs₂
    obtain ⟨a₂', hcopy, hcopied⟩ := copyArray1_zero h₁ h₂ hp₁ hp₂ hsubs₁ hsubs₂ axis
    refine ⟨a₂', subs, hcopy, hcopied.congr fun subs' hsubs' _ => ?_, rfl, rfl⟩
    rw [mem_begun, htake subs hlength, htake subs' hsubs'.length_eq, Set.mem_singleton_iff]
  | succ axes ih =>
    have haxis₁ : axis < a₁.dimensions.length := by omega
    have haxis₂ : axis < a₂.dimensions.length := by omega
    set limit := if a₁.dimensions[axis] < a₂.dimensions[axis] then a₁.dimensions[axis]
      else a₂.dimensions[axis] with hlimit
    have hmin : ∀ j, j < limit ↔ j < a₁.dimensions[axis] ∧ j < a₂.dimensions[axis] := by
      intro j
      rw [hlimit]
      split_ifs <;> omega
    -- a round copies the elements with its subscript on this axis
    have hround : ∀ j s, 0 ≤ j → j < 0 + limit → CopiedBelow a₁ a₂ heap p₂ subs axis j s →
        ∃ s', copyArray1 p₁ p₂ axes (axis + 1) (s.1, s.2.set axis j) = .ok s' ∧
          CopiedBelow a₁ a₂ heap p₂ subs axis (j + 1) s' := by
      rintro j ⟨heap', subs'⟩ - hj ⟨a₂', hheap', hcopied, hlength', htake'⟩
      dsimp only at hheap' hlength' htake' ⊢
      obtain ⟨hj₁, hj₂⟩ := (hmin j).mp (by omega)
      have hset : (subs'.set axis j).length = a₁.dimensions.length := by
        rw [List.length_set, hlength', hlength]
      have haxis : axis < (subs'.set axis j).length := by omega
      have hj : (subs'.set axis j)[axis] = j := List.getElem_set_self haxis
      have hbegin : (subs'.set axis j).take axis = subs.take axis := by
        rw [List.take_set_of_le (Nat.le_refl axis), htake']
      have hdims := hcopied.dimensions
      have hp₁' : heap'[p₁]? = some a₁ := by
        rw [hheap', List.getElem?_set_ne hne.symm, hp₁]
      have hp₂' : heap'[p₂]? = some a₂' := by
        rw [hheap', List.getElem?_set_self (List.getElem?_eq_some_iff.mp hp₂).1]
      have hnext₁ := below_take_succ haxis haxis₁ (by rwa [hbegin]) (by rwa [hj])
      have hnext₂ : Below ((subs'.set axis j).take (axis + 1)) (a₂'.dimensions.take (axis + 1)) := by
        rw [hdims]
        exact below_take_succ haxis haxis₂ (by rwa [hbegin]) (by rwa [hj])
      obtain ⟨a₂'', subs'', hcopy, hcopied', hlength'', htake''⟩ :=
        ih (by rw [hdims, hrank]) (by omega) hcopied.exact hp₁' hp₂' hset hnext₁ hnext₂
      refine ⟨_, hcopy, a₂'', ?_, ?_, ?_, ?_⟩
      · rw [hheap', List.set_set]
      · refine (hcopied.trans hcopied').congr fun t ht _ => ?_
        have haxist : axis < t.length := by
          rw [ht.length_eq]
          exact haxis₁
        rw [Set.mem_union, mem_begun, take_succ_eq_iff haxist haxis, hbegin, hj,
          Set.mem_ofPred_eq, Set.mem_ofPred_eq, mem_begun, List.getD_eq_getElem t 0 haxist]
        constructor
        · rintro (⟨hbegun, hlt⟩ | ⟨hbegun, heq⟩)
          · exact ⟨hbegun, by omega⟩
          · exact ⟨hbegun, by omega⟩
        · rintro ⟨hbegun, hlt⟩
          rcases Nat.lt_succ_iff_lt_or_eq.mp hlt with hlt | heq
          · exact Or.inl ⟨hbegun, hlt⟩
          · exact Or.inr ⟨hbegun, heq⟩
      · rw [hlength'', List.length_set, hlength']
      · have htake := congrArg (List.take axis) htake''
        rw [List.take_take, List.take_take, Nat.min_eq_left (Nat.le_succ axis), hbegin] at htake
        exact htake
    obtain ⟨⟨heap', subs'⟩, hloop, a₂', hheap', hcopied, hlength', htake'⟩ :=
      forLoop_ok _ (copiedBelow_zero h₂ hp₂ axis) hround
    refine ⟨a₂', subs', ?_, hcopied.congr fun t ht₁ ht₂ => ?_, hlength', htake'⟩
    · simp only [copyArray1, Heap.get_of_getElem? hp₁, Heap.get_of_getElem? hp₂,
        h₁.dimension haxis₁, h₂.dimension haxis₂, bind, Except.bind]
      rw [← hlimit, hloop, show heap' = heap.set p₂ a₂' from hheap']
    · have haxist : axis < t.length := by
        rw [ht₁.length_eq]
        exact haxis₁
      have hlt : t[axis] < limit := (hmin _).mpr
        ⟨List.Forall₂.get ht₁ haxist haxis₁, List.Forall₂.get ht₂ haxist haxis₂⟩
      rw [Set.mem_ofPred_eq, List.getD_eq_getElem t 0 haxist, Nat.zero_add]
      exact and_iff_left hlt

theorem copyArray_eq {rank : ℕ} (hp₁ : heap[p₁]? = some a₁) (hrank : a₁.rank = rank) :
    copyArray p₁ p₂ heap = Prod.fst <$> copyArray1 p₁ p₂ (intAxes rank) 0
      (heap, List.replicate rank 0) := by
  subst hrank
  rw [copyArray, Heap.get_of_getElem? hp₁]
  simp only [bind, Except.bind]
  cases copyArray1 p₁ p₂ (intAxes a₁.rank) 0 (heap, List.replicate a₁.rank 0) <;> rfl

/-- All common elements are copied, if the rank is an `int`. -/
theorem copyArray_ok (h₁ : a₁.Exact) (h₂ : a₂.Exact) (hne : p₁ ≠ p₂)
    (hrank : a₂.dimensions.length = a₁.dimensions.length) (hint : a₁.dimensions.length < 2 ^ 31)
    (hp₁ : heap[p₁]? = some a₁) (hp₂ : heap[p₂]? = some a₂) :
    ∃ a₂', copyArray p₁ p₂ heap = .ok (heap.set p₂ a₂') ∧ Copied a₁ a₂ a₂' Set.univ := by
  have hzeros : (List.replicate a₁.dimensions.length 0).length = a₁.dimensions.length :=
    List.length_replicate
  obtain ⟨a₂', subs', hcopy, hcopied, -, -⟩ :=
    copyArray1_ok h₁ hne hrank (Nat.zero_add _) h₂ hp₁ hp₂ hzeros .nil .nil
  refine ⟨a₂', ?_, hcopied.congr fun t _ _ => ⟨fun _ => Set.mem_univ t, fun _ => rfl⟩⟩
  rw [copyArray_eq hp₁ h₁.rank_eq, intAxes, if_pos hint, hcopy]
  rfl

theorem copyArray_wide (h₁ : a₁.Exact) (hwide : 2 ^ 31 ≤ a₁.dimensions.length)
    (hp₁ : heap[p₁]? = some a₁) : copyArray p₁ p₂ heap =
      Prod.fst <$> copyArray1 p₁ p₂ 0 0 (heap, List.replicate a₁.dimensions.length 0) := by
  rw [copyArray_eq hp₁ h₁.rank_eq, intAxes, if_neg (not_lt.mpr hwide)]

end

/-! ## The new array -/

theorem fill_eq {e : Value} {n : ℕ} {data : List Value} (h : n ≤ data.length) :
    fill e n data = .ok (List.replicate n e ++ data.drop n) := by
  induction n generalizing data with
  | zero => rfl
  | succ n ih =>
    have hstore : store data n e = .ok (data.set n e) := if_pos h
    have hlength : n ≤ (data.set n e).length := by
      rw [List.length_set]
      omega
    rw [fill, hstore]
    refine (ih hlength).trans ?_
    have hdrop : (data.set n e).drop n = e :: data.drop (n + 1) := by
      rw [List.drop_eq_getElem_cons (by rwa [List.length_set]), List.getElem_set_self,
        List.drop_set_of_lt (Nat.lt_succ_self n)]
    rw [hdrop, List.replicate_succ', List.append_assoc]
    rfl

theorem fill_overrun {e : Value} {n : ℕ} {data : List Value} (h : data.length < n) :
    fill e n data = .error .overrun := by
  cases n with
  | zero => exact absurd h (Nat.not_lt_zero _)
  | succ n =>
    have hstore : store data n e = .error .overrun := if_neg (by omega)
    rw [fill, hstore]
    rfl

section

variable {dims : List ℕ} {e : Value}

/-- The array that `adjust_array` makes. -/
def fresh (dims : List ℕ) (e : Value) : SimpleArray :=
  ⟨dims, dims.prod, List.replicate dims.prod e⟩

theorem length_allocate (n : ℕ) (h : n < 2 ^ 64) :
    (allocate n).length = if n < 2 ^ 61 then n else n % 2 ^ 61 := by
  rw [allocate, List.length_replicate]
  split_ifs <;> omega

theorem new_element (h : dims.prod < 2 ^ 61) :
    SimpleArray.new dims (.element e) = .ok (fresh dims e) := by
  have hlength := length_allocate dims.prod (by omega)
  rw [if_pos h] at hlength
  have hfill := fill_eq (e := e) hlength.ge
  rw [List.drop_of_length_le hlength.le, List.append_nil] at hfill
  rw [SimpleArray.new, computeTotalSize_eq, Nat.mod_eq_of_lt (by omega), hfill]
  rfl

theorem new_overrun (h : 2 ^ 61 ≤ dims.prod) (hprod : dims.prod < 2 ^ 64) :
    SimpleArray.new dims (.element e) = .error .overrun := by
  have hlength := length_allocate dims.prod hprod
  rw [if_neg (not_lt.mpr h)] at hlength
  rw [SimpleArray.new, computeTotalSize_eq, Nat.mod_eq_of_lt hprod,
    fill_overrun (by rw [hlength]; exact (Nat.mod_lt _ (by norm_num)).trans_le h)]
  rfl

theorem exact_fresh (hrank : dims.length < 2 ^ 32) (h : dims.prod < 2 ^ 64) :
    (fresh dims e).Exact :=
  ⟨⟨(Nat.mod_eq_of_lt h).symm, List.length_replicate.ge⟩, hrank, h⟩

theorem aref_fresh (hrank : dims.length < 2 ^ 32) (h : dims.prod < 2 ^ 64) {subs : List ℕ}
    (hsubs : Below subs dims) : (fresh dims e).aref subs = .ok e := by
  have hexact := exact_fresh (e := e) hrank h
  obtain ⟨index, hlt, hindex⟩ := hexact.addresses.lt subs hsubs
  obtain ⟨hdata, haref⟩ := SimpleArray.aref_eq hexact.stored hindex hlt
  rw [haref]
  exact congrArg Except.ok (List.getElem_replicate _)

end

/-! ## Adjusting -/

/-- `a'`, in the place `p'`, is the array `a` adjusted to the new dimensions. -/
structure Adjusted (heap heap' : Heap) (p' : ℕ) (a a' : SimpleArray) (dims : List ℕ) (e : Value) :
    Prop where
  result : heap'[p']? = some a'
  dimensions : a'.dimensions = dims
  common : ∀ subs, Below subs dims → Below subs a.dimensions → a'.aref subs = a.aref subs
  initial : ∀ subs, Below subs dims → ¬Below subs a.dimensions → a'.aref subs = .ok e
  /-- The arrays that were there, `a` too, are unchanged. -/
  others : ∀ q < heap.length, heap'[q]? = heap[q]?

/-- `adjust_array` without initial contents returns the adjusted array. -/
def Adjusts (heap : Heap) (p : ℕ) (a : SimpleArray) (dims : List ℕ) (e : Value) : Prop :=
  ∃ heap' p' a', adjustArray heap p dims e none = .ok (heap', p') ∧
    Adjusted heap heap' p' a a' dims e

section

variable {heap : Heap} {p : ℕ} {a : SimpleArray} {dims : List ℕ} {e : Value}

theorem adjusts_same (hp : heap[p]? = some a) : Adjusts heap p a a.dimensions e := by
  refine ⟨heap, p, a, ?_, hp, rfl, fun _ _ _ => rfl, fun _ h hnot => absurd h hnot, fun _ _ => rfl⟩
  simp only [adjustArray, Heap.get_of_getElem? hp, bind, Except.bind, List.take_length, if_pos]
  rfl

theorem adjustArray_of_ne (hp : heap[p]? = some a) (hlength : dims.length = a.dimensions.length)
    (hne : dims ≠ a.dimensions) : adjustArray heap p dims e none = do
      let array ← SimpleArray.new dims (.element e)
      return (← copyArray p heap.length (heap ++ [array]), heap.length) := by
  have htake : ¬a.dimensions.take dims.length = dims := by
    rw [hlength, List.take_length]
    exact hne.symm
  simp only [adjustArray, Heap.get_of_getElem? hp, bind, Except.bind, if_neg htake]

theorem adjustArray_fresh (hp : heap[p]? = some a) (hlength : dims.length = a.dimensions.length)
    (hne : dims ≠ a.dimensions) (hsize : dims.prod < 2 ^ 61) :
    adjustArray heap p dims e none =
      (·, heap.length) <$> copyArray p heap.length (heap ++ [fresh dims e]) := by
  rw [adjustArray_of_ne hp hlength hne, new_element hsize]
  cases hcopy : copyArray p heap.length (heap ++ [fresh dims e]) <;>
    simp only [bind, Except.bind, hcopy] <;> rfl

theorem getElem?_append_fresh (hp : heap[p]? = some a) (array : SimpleArray) :
    p ≠ heap.length ∧ (heap ++ [array])[p]? = some a ∧
      (heap ++ [array])[heap.length]? = some array := by
  obtain ⟨hlt, -⟩ := List.getElem?_eq_some_iff.mp hp
  exact ⟨hlt.ne, by rw [List.getElem?_append_left hlt, hp], List.getElem?_concat_length⟩

theorem adjusts_of_copied {D : Set (List ℕ)} {a' : SimpleArray} (hp : heap[p]? = some a)
    (hlength : dims.length = a.dimensions.length) (hrank : dims.length < 2 ^ 32)
    (hne : dims ≠ a.dimensions) (hsize : dims.prod < 2 ^ 61)
    (hcopy : copyArray p heap.length (heap ++ [fresh dims e]) =
      .ok ((heap ++ [fresh dims e]).set heap.length a'))
    (hcopied : Copied a (fresh dims e) a' D) :
    Adjusts heap p a dims e ↔
      ∀ subs, Below subs dims → Below subs a.dimensions → subs ∉ D → a.aref subs = .ok e := by
  have hadjust : adjustArray heap p dims e none = .ok (heap ++ [a'], heap.length) := by
    rw [adjustArray_fresh hp hlength hne hsize, hcopy, List.set_append_right _ _ (le_refl _),
      Nat.sub_self]
    rfl
  have hresult : (heap ++ [a'])[heap.length]? = some a' := List.getElem?_concat_length
  have hkept : ∀ subs, Below subs dims → ¬(subs ∈ D ∧ Below subs a.dimensions) →
      a'.aref subs = .ok e := by
    intro subs hsubs hnot
    rw [hcopied.kept subs hsubs hnot, aref_fresh hrank (by omega) hsubs]
  constructor
  · rintro ⟨heap', p', a'', hadjust', hadjusted⟩ subs hsubs hsubs' hnot
    obtain ⟨rfl, rfl⟩ := Prod.mk.inj (Except.ok.inj (hadjust.symm.trans hadjust'))
    obtain rfl := Option.some.inj (hresult.symm.trans hadjusted.result)
    rw [← hadjusted.common subs hsubs hsubs', hkept subs hsubs fun h => hnot h.1]
  · intro hinitial
    refine ⟨_, _, a', hadjust, hresult, hcopied.dimensions, fun subs hsubs hsubs' => ?_,
      fun subs hsubs hnot => hkept subs hsubs fun h => hnot h.2,
      fun q hq => List.getElem?_append_left hq⟩
    by_cases hmem : subs ∈ D
    · exact hcopied.copied subs hmem hsubs' hsubs
    · rw [hkept subs hsubs fun h => hmem h.1, hinitial subs hsubs hsubs' hmem]

theorem below_zeros {n : ℕ} (hn : dims.length = n) :
    Below (List.replicate n 0) dims ↔ ∀ dim ∈ dims, dim ≠ 0 := by
  induction dims generalizing n with
  | nil =>
    subst hn
    exact ⟨fun _ dim hdim => absurd hdim List.not_mem_nil, fun _ => .nil⟩
  | cons dim dims ih =>
    subst hn
    rw [List.length_cons, List.replicate_succ, Below, List.forall₂_cons, List.forall_mem_cons,
      Nat.pos_iff_ne_zero]
    exact and_congr_right fun _ => ih rfl

theorem copyArray1_zero_error {a₁ a₂ : SimpleArray} {p₁ p₂ : ℕ} {subs : List ℕ} (h₁ : a₁.Exact)
    (h₂ : a₂.Exact) (hp₁ : heap[p₁]? = some a₁) (hp₂ : heap[p₂]? = some a₂)
    (hlength₁ : subs.length = a₁.dimensions.length) (hlength₂ : subs.length = a₂.dimensions.length)
    (hsubs : ¬(Below subs a₁.dimensions ∧ Below subs a₂.dimensions)) (axis : ℕ) :
    ∃ failure, copyArray1 p₁ p₂ 0 axis (heap, subs) = .error failure := by
  by_cases hsubs₁ : Below subs a₁.dimensions
  · obtain ⟨n, herror⟩ := SimpleArray.rowMajorIndex_of_not_below h₂.rank hlength₂
      fun hsubs₂ => hsubs ⟨hsubs₁, hsubs₂⟩
    obtain ⟨i₁, -, hi₁⟩ := h₁.addresses.lt subs hsubs₁
    refine ⟨.invalidIndex n, ?_⟩
    simp only [copyArray1, Heap.get_of_getElem? hp₁, Heap.get_of_getElem? hp₂, hi₁, herror, bind,
      Except.bind]
  · obtain ⟨n, herror⟩ := SimpleArray.rowMajorIndex_of_not_below h₁.rank hlength₁ hsubs₁
    refine ⟨.invalidIndex n, ?_⟩
    simp only [copyArray1, Heap.get_of_getElem? hp₁, Heap.get_of_getElem? hp₂, herror, bind,
      Except.bind]

/-- All common elements but the first hold the initial element. -/
def OnlyFirst (a : SimpleArray) (dims : List ℕ) (e : Value) : Prop :=
  ∀ subs, Below subs dims → Below subs a.dimensions → (∃ n ∈ subs, n ≠ 0) → a.aref subs = .ok e

theorem adjusts_of_int (hp : heap[p]? = some a) (ha : a.Exact)
    (hlength : dims.length = a.dimensions.length) (hne : dims ≠ a.dimensions)
    (hsize : dims.prod < 2 ^ 61) (hint : dims.length < 2 ^ 31) : Adjusts heap p a dims e := by
  have hrank : dims.length < 2 ^ 32 := by omega
  obtain ⟨hplace, hp₁, hp₂⟩ := getElem?_append_fresh hp (fresh dims e)
  obtain ⟨a', hcopy, hcopied⟩ := copyArray_ok ha (exact_fresh hrank (by omega)) hplace hlength
    (hlength ▸ hint) hp₁ hp₂
  exact (adjusts_of_copied hp hlength hrank hne hsize hcopy hcopied).mpr
    fun subs _ _ hnot => absurd (Set.mem_univ subs) hnot

theorem adjusts_of_wide (hp : heap[p]? = some a) (ha : a.Exact)
    (hlength : dims.length = a.dimensions.length) (hne : dims ≠ a.dimensions)
    (hsize : dims.prod < 2 ^ 61) (hwide : 2 ^ 31 ≤ dims.length) :
    Adjusts heap p a dims e ↔ (∀ n ∈ a.dimensions ++ dims, n ≠ 0) ∧ OnlyFirst a dims e := by
  have hrank : dims.length < 2 ^ 32 := hlength ▸ ha.rank
  have hfresh := exact_fresh (e := e) hrank (by omega)
  obtain ⟨hplace, hp₁, hp₂⟩ := getElem?_append_fresh hp (fresh dims e)
  have hcopy : copyArray p heap.length (heap ++ [fresh dims e]) = _ :=
    copyArray_wide ha (hlength ▸ hwide) hp₁
  rw [List.forall_mem_append, ← below_zeros rfl, ← below_zeros hlength]
  set zeros := List.replicate a.dimensions.length 0 with hzeros
  by_cases hbelow : Below zeros a.dimensions ∧ Below zeros dims
  · obtain ⟨a', hone, hcopied⟩ := copyArray1_zero ha hfresh hp₁ hp₂ hbelow.1 hbelow.2 0
    rw [hone] at hcopy
    rw [adjusts_of_copied hp hlength hrank hne hsize hcopy hcopied, and_iff_right hbelow]
    refine forall₃_congr fun subs _ hsubs => imp_congr_left ?_
    rw [Set.mem_singleton_iff, hzeros, List.eq_replicate_iff, and_iff_right hsubs.length_eq]
    push Not
    rfl
  · obtain ⟨failure, herror⟩ := copyArray1_zero_error ha hfresh hp₁ hp₂ List.length_replicate
      (List.length_replicate.trans hlength.symm) hbelow 0
    rw [herror] at hcopy
    refine iff_of_false ?_ fun h => hbelow h.1
    rintro ⟨heap', p', a', hadjust, -⟩
    rw [adjustArray_fresh hp hlength hne hsize, hcopy] at hadjust
    cases hadjust

theorem not_adjusts_of_size (hp : heap[p]? = some a) (hlength : dims.length = a.dimensions.length)
    (hne : dims ≠ a.dimensions) (hsize : 2 ^ 61 ≤ dims.prod) (hnew : dims.prod < 2 ^ 64) :
    ¬Adjusts heap p a dims e := by
  rintro ⟨heap', p', a', hadjust, -⟩
  rw [adjustArray_of_ne hp hlength hne, new_overrun hsize hnew] at hadjust
  cases hadjust

/-- **Adjusting keeps the common elements** and fills the others exactly when the dimensions are the
old ones, or the new array has fewer than `2 ^ 61` elements, whose size in bytes does not wrap
around, and the rank is an `int`, or there is nothing to copy beyond the first element. -/
theorem adjusted_iff (hp : heap[p]? = some a) (hstored : a.Stored)
    (hrank : a.dimensions.length < 2 ^ 32) (hlength : dims.length = a.dimensions.length)
    (hold : a.dimensions.prod < 2 ^ 64) (hnew : dims.prod < 2 ^ 64) :
    Adjusts heap p a dims e ↔ dims = a.dimensions ∨ (dims.prod < 2 ^ 61 ∧
      (dims.length < 2 ^ 31 ∨ (∀ n ∈ a.dimensions ++ dims, n ≠ 0) ∧ OnlyFirst a dims e)) := by
  have ha : a.Exact := ⟨hstored, hrank, hold⟩
  by_cases hne : dims = a.dimensions
  · rw [hne]
    exact iff_of_true (adjusts_same hp) (Or.inl rfl)
  rw [or_iff_right hne]
  by_cases hsize : dims.prod < 2 ^ 61
  · rw [and_iff_right hsize]
    by_cases hint : dims.length < 2 ^ 31
    · exact iff_of_true (adjusts_of_int hp ha hlength hne hsize hint) (Or.inl hint)
    · rw [or_iff_right hint]
      exact adjusts_of_wide hp ha hlength hne hsize (not_lt.mp hint)
  · exact iff_of_false (not_adjusts_of_size hp hlength hne (not_lt.mp hsize) hnew)
      fun h => hsize h.1

end

/-- One axis grows and the other shrinks. -/
theorem adjusted_three_two : Adjusts [fresh [2, 3] (.object 1)] 0 (fresh [2, 3] (.object 1)) [3, 2]
    (.object 2) := by
  refine (adjusted_iff ?_ (exact_fresh ?_ ?_).stored ?_ ?_ ?_ ?_).mpr (Or.inr ⟨?_, Or.inl ?_⟩)
  · rfl
  all_goals decide

theorem not_onlyFirst {dims : List ℕ} (hrank : (2 :: dims).length < 2 ^ 32)
    (hdims : ∀ n ∈ dims, n ≠ 0) (hprod : (2 :: dims).prod < 2 ^ 64) :
    ¬OnlyFirst (fresh (2 :: dims) (.object 1)) (3 :: dims) (.object 2) := by
  intro h
  have hzeros := (below_zeros rfl).mpr hdims
  have hold := h (1 :: List.replicate dims.length 0) (.cons (by decide) hzeros)
    (.cons (by decide) hzeros) ⟨1, List.mem_cons_self, by decide⟩
  rw [aref_fresh hrank hprod (.cons (by decide) hzeros)] at hold
  cases hold

/-- `2 ^ 61` elements have a size in bytes of `0`; and of an array with `2 ^ 31` dimensions, all of
them `1` but the first, the second element is lost. -/
theorem not_adjusts :
    ¬Adjusts [fresh [2, 2] (.object 1)] 0 (fresh [2, 2] (.object 1)) [2 ^ 31, 2 ^ 30] (.object 2) ∧
    ¬Adjusts [fresh (2 :: List.replicate (2 ^ 31 - 1) 1) (.object 1)] 0
      (fresh (2 :: List.replicate (2 ^ 31 - 1) 1) (.object 1))
      (3 :: List.replicate (2 ^ 31 - 1) 1) (.object 2) := by
  refine ⟨not_adjusts_of_size rfl rfl (by decide) (by decide) (by decide), ?_⟩
  generalize hones : List.replicate (2 ^ 31 - 1) 1 = ones
  have hlength : ones.length = 2 ^ 31 - 1 := by rw [← hones, List.length_replicate]
  have hprod : ones.prod = 1 := by rw [← hones, List.prod_replicate, Nat.one_pow]
  have hpos : ∀ n ∈ ones, n ≠ 0 := by
    intro n hn
    rw [← hones] at hn
    rw [List.eq_of_mem_replicate hn]
    decide
  have hrank : (2 :: ones).length < 2 ^ 32 := by
    rw [List.length_cons, hlength]
    norm_num
  have hold : (2 :: ones).prod < 2 ^ 64 := by
    rw [List.prod_cons, hprod]
    norm_num
  have ha : (fresh (2 :: ones) (.object 1)).Exact := exact_fresh hrank hold
  intro h
  have hsame : (3 :: ones).length = (fresh (2 :: ones) (.object 1)).dimensions.length := rfl
  refine not_onlyFirst hrank hpos hold ((adjusts_of_wide rfl ha hsame ?_ ?_ ?_).mp h).2
  · intro heq
    exact absurd (List.head_eq_of_cons_eq heq) (by decide)
  · rw [List.prod_cons, hprod]
    norm_num
  · rw [List.length_cons, hlength]
    norm_num

end Xcl.Arrays
