import Xcl.Arrays.Model
import Xcl.Lib.Loops

/-!
# The addresses of elements

* **`addresses_iff`**: the addresses are right exactly when the product does not wrap.
-/

namespace Xcl.Arrays

open MixedRadix Loops

/-! ## Row-major indices -/

theorem computeTotalSize_eq (dims : List ℕ) : computeTotalSize dims = dims.prod % 2 ^ 64 := by
  induction dims with
  | nil => rfl
  | cons dim dims ih =>
    have hcons : computeTotalSize (dim :: dims) = computeTotalSize dims * dim % 2 ^ 64 := rfl
    rw [hcons, ih, Nat.mod_mul_mod, List.prod_cons, Nat.mul_comm]

namespace SimpleArray

theorem rowMajorLoop_zip {dims subs : List ℕ} (h : Below subs dims) (rest : List (ℕ × ℕ)) :
    rowMajorLoop ((dims.zip subs).reverse ++ rest) 0 1 =
      rowMajorLoop rest (value dims subs % 2 ^ 64) (dims.prod % 2 ^ 64) := by
  induction h generalizing rest with
  | nil => rfl
  | @cons n dim subs dims hlt _ ih =>
    rw [List.zip_cons_cons, List.reverse_cons, List.append_assoc, ih, List.singleton_append,
      rowMajorLoop, if_neg (Nat.not_le.mpr hlt), List.prod_cons, value]
    congr 1
    · rw [Nat.mod_add_mod, Nat.add_mod, Nat.mul_mod_mod, ← Nat.add_mod, Nat.add_comm]
    · rw [Nat.mod_mul_mod, Nat.mul_comm]

theorem rowMajorLoop_error {pairs : List (ℕ × ℕ)} (h : ∃ pair ∈ pairs, pair.1 ≤ pair.2)
    (sum size : ℕ) : ∃ n, rowMajorLoop pairs sum size = .error (.invalidIndex n) := by
  induction pairs generalizing sum size with
  | nil =>
    obtain ⟨_, hmem, -⟩ := h
    cases hmem
  | cons pair rest ih =>
    obtain ⟨dim, n⟩ := pair
    rw [rowMajorLoop]
    split_ifs with hn
    · exact ⟨n, rfl⟩
    · refine ih ?_ _ _
      obtain ⟨pair, hmem, hle⟩ := h
      rcases List.mem_cons.mp hmem with rfl | hmem
      · exact absurd hle hn
      · exact ⟨pair, hmem, hle⟩

theorem exists_le_of_not_below {dims subs : List ℕ} (hlength : subs.length = dims.length)
    (h : ¬Below subs dims) : ∃ pair ∈ dims.zip subs, pair.1 ≤ pair.2 := by
  by_contra hno
  refine h (List.forall₂_iff_zip.mpr ⟨hlength, fun {n dim} hmem => ?_⟩)
  by_contra hle
  refine hno ⟨(dim, n), ?_, Nat.not_lt.mp hle⟩
  rw [← List.zip_swap]
  exact List.mem_map.mpr ⟨(n, dim), hmem, rfl⟩

variable {a : SimpleArray} {subs : List ℕ}

theorem rank_eq (h : a.dimensions.length < 2 ^ 32) : a.rank = a.dimensions.length :=
  Nat.mod_eq_of_lt h

theorem rowMajorIndex_eq (hrank : a.dimensions.length < 2 ^ 32)
    (hlength : subs.length = a.dimensions.length) :
    a.rowMajorIndex subs = rowMajorLoop (a.dimensions.zip subs).reverse 0 1 := by
  have htake : (a.dimensions.zip subs).take a.dimensions.length = a.dimensions.zip subs :=
    List.take_of_length_le (by rw [List.length_zip, hlength, Nat.min_self])
  have hnsubs : subs.length % 2 ^ 32 = a.dimensions.length := by
    rw [hlength, Nat.mod_eq_of_lt hrank]
  rw [rowMajorIndex, rank_eq hrank, hnsubs, if_neg (not_not.mpr rfl), htake]

theorem rowMajorIndex_of_below (hrank : a.dimensions.length < 2 ^ 32)
    (h : Below subs a.dimensions) :
    a.rowMajorIndex subs = .ok (value a.dimensions subs % 2 ^ 64) := by
  have hloop := rowMajorLoop_zip h []
  rw [List.append_nil] at hloop
  rw [rowMajorIndex_eq hrank h.length_eq, hloop]
  rfl

theorem rowMajorIndex_of_not_below (hrank : a.dimensions.length < 2 ^ 32)
    (hlength : subs.length = a.dimensions.length) (h : ¬Below subs a.dimensions) :
    ∃ n, a.rowMajorIndex subs = .error (.invalidIndex n) := by
  rw [rowMajorIndex_eq hrank hlength]
  obtain ⟨pair, hmem, hle⟩ := exists_le_of_not_below hlength h
  exact rowMajorLoop_error ⟨pair, List.mem_reverse.mpr hmem, hle⟩ 0 1

/-- An array whose storage has all of its elements. -/
def Stored (a : SimpleArray) : Prop :=
  a.totalSize = a.dimensions.prod % 2 ^ 64 ∧ a.totalSize ≤ a.data.length

theorem aref_eq (hstored : a.Stored) {index : ℕ} (hindex : a.rowMajorIndex subs = .ok index)
    (hlt : index < a.totalSize) :
    ∃ hdata : index < a.data.length, a.aref subs = .ok a.data[index] := by
  have hdata := hlt.trans_le hstored.2
  refine ⟨hdata, ?_⟩
  rw [aref, hindex]
  simp only [bind, Except.bind, if_pos hlt, List.getElem?_eq_getElem hdata, Option.elim_some]

theorem aset_eq (hstored : a.Stored) {index : ℕ} (hindex : a.rowMajorIndex subs = .ok index)
    (hlt : index < a.totalSize) (v : Value) :
    a.aset subs v = .ok { a with data := a.data.set index v } := by
  rw [aset, hindex]
  simp only [bind, Except.bind, if_pos hlt, store, if_pos (hlt.trans_le hstored.2)]
  rfl

end SimpleArray

/-! ## New arrays -/

theorem length_store {data data' : List Value} {index : ℕ} {v : Value}
    (h : store data index v = .ok data') : index < data.length ∧ data'.length = data.length := by
  unfold store at h
  split_ifs at h with hlt
  cases h
  exact ⟨hlt, List.length_set⟩

theorem length_fill {v : Value} {n : ℕ} {data data' : List Value} (h : fill v n data = .ok data') :
    n ≤ data.length ∧ data'.length = data.length := by
  induction n generalizing data with
  | zero =>
    cases h
    exact ⟨Nat.zero_le _, rfl⟩
  | succ n ih =>
    obtain ⟨stored, hstore, hfill⟩ := bind_eq_ok.mp h
    obtain ⟨hlt, hlength⟩ := length_store hstore
    obtain ⟨-, hfill⟩ := ih hfill
    exact ⟨hlt, hfill.trans hlength⟩

/-- The index moves on by the number of elements, and the last of them is in the storage. -/
def Filled (elements : ℕ) (s s' : List Value × ℕ) : Prop :=
  s'.1.length = s.1.length ∧ s'.2 = s.2 + elements ∧ (elements ≠ 0 → s'.2 ≤ s.1.length)

theorem Filled.refl (s : List Value × ℕ) : Filled 0 s s := ⟨rfl, rfl, fun h => absurd rfl h⟩

theorem Filled.trans {m n : ℕ} {s s' s'' : List Value × ℕ} (h : Filled m s s')
    (h' : Filled n s' s'') : Filled (m + n) s s'' := by
  obtain ⟨hlength, hindex, hle⟩ := h
  obtain ⟨hlength', hindex', hle'⟩ := h'
  refine ⟨hlength'.trans hlength, by omega, fun _ => ?_⟩
  by_cases hn : n = 0
  · have := hle (by omega)
    omega
  · have := hle' hn
    omega

theorem filled_foldlM {n : ℕ} {elements : List Value}
    {block : List Value × ℕ → Value → Except Failure (List Value × ℕ)}
    (hblock : ∀ content t t', block t content = .ok t' → Filled n t t')
    {start stop : List Value × ℕ} (h : elements.foldlM block start = .ok stop) :
    Filled (elements.length * n) start stop := by
  induction elements generalizing start with
  | nil =>
    cases h
    rw [List.length_nil, Nat.zero_mul]
    exact Filled.refl _
  | cons content elements ih =>
    obtain ⟨next, hcontent, hrest⟩ := bind_eq_ok.mp h
    have hblocks := (hblock content start next hcontent).trans (ih hrest)
    rwa [List.length_cons, Nat.succ_mul, Nat.add_comm]

theorem filled_setInitialContents {totalSize : ℕ} {dims : List ℕ} {contents : Value}
    {s s' : List Value × ℕ} (h : setInitialContents totalSize dims contents s = .ok s') :
    Filled dims.prod s s' := by
  induction dims generalizing contents s s' with
  | nil =>
    obtain ⟨data, index⟩ := s
    rw [setInitialContents] at h
    split_ifs at h
    obtain ⟨data', hstore, hreturn⟩ := bind_eq_ok.mp h
    cases hreturn
    obtain ⟨hlt, hlength⟩ := length_store hstore
    exact ⟨hlength, rfl, fun _ => hlt⟩
  | cons dim dims ih =>
    cases contents with
    | object id => cases h
    | sequence elements =>
      rw [setInitialContents] at h
      split_ifs at h with hdim
      rw [List.prod_cons, not_not.mp hdim]
      exact filled_foldlM (fun _ _ _ => ih) h

theorem computeTotalSize_le (dims : List ℕ) : computeTotalSize dims ≤ dims.prod := by
  rw [computeTotalSize_eq]
  exact Nat.mod_le _ _

theorem stored_new {dims : List ℕ} {initial : Initial} {a : SimpleArray}
    (h : SimpleArray.new dims initial = .ok a) : a.dimensions = dims ∧ a.Stored := by
  cases initial with
  | element v =>
    obtain ⟨data, hfill, hreturn⟩ := bind_eq_ok.mp h
    cases hreturn
    obtain ⟨hle, hlength⟩ := length_fill hfill
    exact ⟨rfl, computeTotalSize_eq dims, hle.trans_eq hlength.symm⟩
  | contents contents =>
    obtain ⟨⟨data, index⟩, hcontents, hreturn⟩ := bind_eq_ok.mp h
    cases hreturn
    obtain ⟨hlength, hindex, hle⟩ := filled_setInitialContents hcontents
    refine ⟨rfl, computeTotalSize_eq dims, (computeTotalSize_le dims).trans ?_⟩
    show dims.prod ≤ data.length
    by_cases hprod : dims.prod = 0
    · rw [hprod]
      exact Nat.zero_le _
    · rw [hlength]
      have := hle hprod
      omega

theorem mapM_checkIndex {dimensions : List ℤ} {dims : List ℕ}
    (h : dimensions.mapM checkIndex = .ok dims) : dimensions = dims.map Nat.cast := by
  induction dimensions generalizing dims with
  | nil =>
    cases h
    rfl
  | cons dimension dimensions ih =>
    rw [List.mapM_cons] at h
    obtain ⟨dim, hdim, htail⟩ := bind_eq_ok.mp h
    obtain ⟨rest, hrest, hreturn⟩ := bind_eq_ok.mp htail
    cases hreturn
    unfold checkIndex at hdim
    split_ifs at hdim with hrange
    cases hdim
    rw [List.map_cons, ← ih hrest, Int.toNat_of_nonneg hrange.1]

theorem makeArray_eq_ok {dimensions : List ℤ} {initial : Initial} {a : SimpleArray}
    (h : makeArray dimensions initial = .ok a) :
    dimensions = a.dimensions.map Nat.cast ∧ a.Stored := by
  obtain ⟨dims, hdims, hnew⟩ := bind_eq_ok.mp h
  obtain ⟨rfl, hstored⟩ := stored_new hnew
  exact ⟨mapM_checkIndex hdims, hstored⟩

/-! ## Addresses -/

/-- Distinct subscripts address distinct elements, and all elements are addressed. -/
structure Addresses (a : SimpleArray) : Prop where
  lt : ∀ subs, Below subs a.dimensions → ∃ index < a.totalSize, a.rowMajorIndex subs = .ok index
  injective : ∀ subs subs', Below subs a.dimensions → Below subs' a.dimensions →
    a.rowMajorIndex subs = a.rowMajorIndex subs' → subs = subs'
  surjective : ∀ index < a.totalSize, ∃ subs, Below subs a.dimensions ∧
    a.rowMajorIndex subs = .ok index
  aset : ∀ subs v, Below subs a.dimensions → ∃ a', a.aset subs v = .ok a' ∧
    ∀ subs', Below subs' a.dimensions →
      a'.aref subs' = if subs' = subs then .ok v else a.aref subs'
  rejects : ∀ subs v, subs.length = a.dimensions.length → ¬Below subs a.dimensions →
    (∃ failure, a.aref subs = .error failure) ∧ ∃ failure, a.aset subs v = .error failure

section

variable {a : SimpleArray}

/-- A write goes where a read with the same subscripts looks, and no others. -/
theorem aset_of_injective (hstored : a.Stored)
    (hlt : ∀ subs, Below subs a.dimensions →
      ∃ index < a.totalSize, a.rowMajorIndex subs = .ok index)
    (hinjective : ∀ subs subs', Below subs a.dimensions → Below subs' a.dimensions →
      a.rowMajorIndex subs = a.rowMajorIndex subs' → subs = subs') {subs : List ℕ} (v : Value)
    (hsubs : Below subs a.dimensions) : ∃ a', a.aset subs v = .ok a' ∧
      ∀ subs', Below subs' a.dimensions →
        a'.aref subs' = if subs' = subs then .ok v else a.aref subs' := by
  obtain ⟨index, hindexlt, hindex⟩ := hlt subs hsubs
  refine ⟨_, SimpleArray.aset_eq hstored hindex hindexlt v, fun subs' hsubs' => ?_⟩
  obtain ⟨index', hindexlt', hindex'⟩ := hlt subs' hsubs'
  have hstored' : SimpleArray.Stored { a with data := a.data.set index v } :=
    ⟨hstored.1, hstored.2.trans_eq List.length_set.symm⟩
  have hindex'' : SimpleArray.rowMajorIndex { a with data := a.data.set index v } subs' =
      .ok index' := hindex'
  obtain ⟨hdata', haref'⟩ := SimpleArray.aref_eq hstored' hindex'' hindexlt'
  rw [haref']
  split_ifs with heq
  · subst heq
    obtain rfl : index = index' := Except.ok.inj (hindex.symm.trans hindex')
    rw [List.getElem_set_self]
  · obtain ⟨hdata, haref⟩ := SimpleArray.aref_eq hstored hindex' hindexlt'
    rw [haref, List.getElem_set_ne]
    intro hsame
    exact heq (hinjective subs' subs hsubs' hsubs (by rw [hindex, hindex', hsame]))

theorem addresses_of_lt (hstored : a.Stored) (hrank : a.dimensions.length < 2 ^ 32)
    (hprod : a.dimensions.prod < 2 ^ 64) : Addresses a := by
  have htotal : a.totalSize = a.dimensions.prod := by rw [hstored.1, Nat.mod_eq_of_lt hprod]
  have hindex : ∀ subs, Below subs a.dimensions →
      a.rowMajorIndex subs = .ok (value a.dimensions subs) := by
    intro subs hsubs
    rw [SimpleArray.rowMajorIndex_of_below hrank hsubs,
      Nat.mod_eq_of_lt ((value_lt hsubs).trans hprod)]
  have hlt : ∀ subs, Below subs a.dimensions →
      ∃ index < a.totalSize, a.rowMajorIndex subs = .ok index := by
    intro subs hsubs
    exact ⟨_, htotal ▸ value_lt hsubs, hindex subs hsubs⟩
  have hinjective : ∀ subs subs', Below subs a.dimensions → Below subs' a.dimensions →
      a.rowMajorIndex subs = a.rowMajorIndex subs' → subs = subs' := by
    intro subs subs' hsubs hsubs' heq
    rw [hindex subs hsubs, hindex subs' hsubs'] at heq
    exact value_injective hsubs hsubs' (Except.ok.inj heq)
  refine ⟨hlt, hinjective, fun index hindexlt => ?_, fun subs v hsubs => ?_,
    fun subs v hlength hsubs => ?_⟩
  · rw [htotal] at hindexlt
    refine ⟨_, below_digits hindexlt, ?_⟩
    rw [hindex _ (below_digits hindexlt), value_digits hindexlt]
  · exact aset_of_injective hstored hlt hinjective v hsubs
  · obtain ⟨n, herror⟩ := SimpleArray.rowMajorIndex_of_not_below hrank hlength hsubs
    rw [SimpleArray.aref, SimpleArray.aset, herror]
    exact ⟨⟨_, rfl⟩, ⟨_, rfl⟩⟩

theorem addresses_of_eq_zero (hstored : a.Stored) (hprod : a.dimensions.prod = 0) :
    Addresses a := by
  have htotal : a.totalSize = 0 := by rw [hstored.1, hprod, Nat.zero_mod]
  have hnone : ∀ subs, ¬Below subs a.dimensions := by
    intro subs hsubs
    exact absurd (prod_pos hsubs) (by omega)
  refine ⟨fun subs hsubs => absurd hsubs (hnone subs),
    fun subs _ hsubs => absurd hsubs (hnone subs), fun index hindex => by omega,
    fun subs _ hsubs => absurd hsubs (hnone subs), fun subs v _ _ => ?_⟩
  rw [SimpleArray.aref, SimpleArray.aset]
  cases a.rowMajorIndex subs with
  | error failure => exact ⟨⟨_, rfl⟩, ⟨_, rfl⟩⟩
  | ok index =>
    have hindex : ¬index < a.totalSize := by omega
    simp only [bind, Except.bind, if_neg hindex]
    exact ⟨⟨_, rfl⟩, ⟨_, rfl⟩⟩

/-- With a product of `2 ^ 64` no element is left, and with a larger one the numerals of `0` and of
`2 ^ 64` have one index. -/
theorem not_addresses_of_le (hstored : a.Stored) (hrank : a.dimensions.length < 2 ^ 32)
    (hprod : 2 ^ 64 ≤ a.dimensions.prod) : ¬Addresses a := by
  intro h
  have hpos : 0 < a.dimensions.prod := by omega
  have hzero := below_digits hpos
  rcases Nat.eq_or_lt_of_le hprod with heq | hlt
  · obtain ⟨index, hindex, -⟩ := h.lt _ hzero
    rw [hstored.1, ← heq, Nat.mod_self] at hindex
    exact Nat.not_lt_zero _ hindex
  · have hpower := below_digits hlt
    have hsame := h.injective _ _ hzero hpower (by
      rw [SimpleArray.rowMajorIndex_of_below hrank hzero,
        SimpleArray.rowMajorIndex_of_below hrank hpower, value_digits (by omega),
        value_digits hlt, Nat.mod_self, Nat.zero_mod])
    have hvalue := congrArg (value a.dimensions) hsame
    rw [value_digits (by omega), value_digits hlt] at hvalue
    omega

theorem not_addresses_of_rank (hstored : a.Stored) (hrank : 2 ^ 32 ≤ a.dimensions.length)
    (hprod : a.dimensions.prod ≠ 0) : ¬Addresses a := by
  intro h
  have hvalid := below_digits (Nat.pos_of_ne_zero hprod)
  have htotal : 0 < a.totalSize := by
    obtain ⟨index, hindex, -⟩ := h.lt _ hvalid
    exact Nat.zero_lt_of_lt hindex
  have hlt : a.rank < a.dimensions.length :=
    (Nat.mod_lt _ (by norm_num)).trans_le hrank
  -- the dimensions that are looked at, and the others as their own subscripts
  have hsplit := List.take_append_drop a.rank a.dimensions
  have hfirst : 0 < (a.dimensions.take a.rank).prod := by
    rw [← hsplit, List.prod_append] at hprod
    exact Nat.pos_of_ne_zero (left_ne_zero_of_mul hprod)
  have hbelow := below_digits hfirst
  set subs := digits (a.dimensions.take a.rank) 0 ++ a.dimensions.drop a.rank with hsubs
  have hlength : subs.length = a.dimensions.length := by
    rw [hsubs, List.length_append, length_digits, ← List.length_append, hsplit]
  have hzip : (a.dimensions.zip subs).take a.rank =
      (a.dimensions.take a.rank).zip (digits (a.dimensions.take a.rank) 0) := by
    have hlengths : (a.dimensions.take a.rank).length = a.rank :=
      List.length_take_of_le hlt.le
    conv_lhs => rw [← hsplit, hsubs, List.zip_append length_digits.symm]
    rw [List.take_left' (by rw [List.length_zip, length_digits, Nat.min_self, hlengths])]
  have hindex : a.rowMajorIndex subs = .ok 0 := by
    have hnsubs : subs.length % 2 ^ 32 = a.rank := by rw [hlength, SimpleArray.rank]
    have hloop := SimpleArray.rowMajorLoop_zip hbelow []
    rw [List.append_nil] at hloop
    rw [SimpleArray.rowMajorIndex, hnsubs, if_neg (not_not.mpr rfl), hzip, hloop,
      value_digits hfirst]
    rfl
  obtain ⟨hdata, haref⟩ := SimpleArray.aref_eq hstored hindex htotal
  have hnot : ¬Below subs a.dimensions := by
    intro hall
    have hdrop := List.forall₂_drop a.rank hall
    rw [hsubs, List.drop_left' (by rw [length_digits, List.length_take_of_le hlt.le]),
      List.drop_eq_getElem_cons hlt] at hdrop
    cases hdrop with
    | cons hself _ => exact Nat.lt_irrefl _ hself
  obtain ⟨⟨failure, herror⟩, -⟩ := h.rejects subs (.object 0) hlength hnot
  rw [haref] at herror
  cases herror

end

theorem prod_map_cast (dims : List ℕ) : (dims.map (Nat.cast : ℕ → ℤ)).prod = dims.prod := by
  rw [Nat.cast_list_prod]

/-- **The subscripts of a new array address its elements** exactly when the product of the
dimensions is below `2 ^ 64`, and there are fewer than `2 ^ 32` dimensions or no elements. -/
theorem addresses_iff {dimensions : List ℤ} {initial : Initial} {a : SimpleArray}
    (h : makeArray dimensions initial = .ok a) :
    Addresses a ↔
      dimensions.prod < 2 ^ 64 ∧ (dimensions.length < 2 ^ 32 ∨ dimensions.prod = 0) := by
  obtain ⟨hdims, hstored⟩ := makeArray_eq_ok h
  have hprod : dimensions.prod = a.dimensions.prod := by rw [hdims, prod_map_cast]
  have hlength : dimensions.length = a.dimensions.length := by rw [hdims, List.length_map]
  have hlt : dimensions.prod < 2 ^ 64 ↔ a.dimensions.prod < 2 ^ 64 := by
    rw [hprod]
    norm_cast
  have hzero : dimensions.prod = 0 ↔ a.dimensions.prod = 0 := by
    rw [hprod]
    norm_cast
  rw [hlt, hlength, hzero]
  constructor
  · intro haddresses
    by_contra hno
    by_cases hempty : a.dimensions.prod = 0
    · exact hno ⟨by omega, Or.inr hempty⟩
    · by_cases hrank : a.dimensions.length < 2 ^ 32
      · refine not_addresses_of_le hstored hrank ?_ haddresses
        by_contra hlt'
        exact hno ⟨by omega, Or.inl hrank⟩
      · exact not_addresses_of_rank hstored (not_lt.mp hrank) hempty haddresses
  · rintro ⟨hlt', hrank | hempty⟩
    · exact addresses_of_lt hstored hrank hlt'
    · exact addresses_of_eq_zero hstored hempty

/-- An array of two rows and three columns. -/
theorem addresses_two_three :
    ∃ a, makeArray [2, 3] (.element (.object 7)) = .ok a ∧ Addresses a := by
  have hnew : ∃ a, makeArray [2, 3] (.element (.object 7)) = .ok a := ⟨_, rfl⟩
  obtain ⟨a, ha⟩ := hnew
  exact ⟨a, ha, (addresses_iff ha).mpr (by decide)⟩

/-- The product of these dimensions is `2 ^ 64 + 1`: there is one element, which the first and the
last subscripts address, and no others do. -/
theorem not_addresses_wrapped :
    ∃ a, makeArray [274177, 67280421310721] (.element (.object 7)) = .ok a ∧ ¬Addresses a := by
  refine ⟨_, rfl, fun h => ?_⟩
  have hsame := h.injective [0, 0] [274176, 67280421310720]
    (.cons (by decide) (.cons (by decide) .nil)) (.cons (by decide) (.cons (by decide) .nil))
    (by decide)
  exact absurd hsame (by decide)

end Xcl.Arrays
