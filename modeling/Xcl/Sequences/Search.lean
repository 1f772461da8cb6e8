import Xcl.Sequences.Find

/-!
# `search`

* `searchCompare`: the four loops that compare, some of which end with a list;
* **`search_finds`**: all sequences, tests and bounds.
-/

namespace Xcl.Sequences

variable {α σ : Type}

/-! ## The comparison -/

def compareElements (test : α → α → Bool) (testNot : Option (α → α → Bool))
    (key : Option (α → α)) (elt1 elt2 : α) : Bool :=
  match testNot with
  | some testNot => !testNot (applyKey key elt1) (applyKey key elt2)
  | none => test (applyKey key elt1) (applyKey key elt2)

section Compare

variable (p : α → α → Bool) (end1 : ℕ)

def searchCompareListList : ℕ → List α → List α → Option Bool
  | jndex, x :: main, y :: sub =>
    if end1 = jndex then some true
    else if p y x then searchCompareListList (jndex + 1) main sub else some false
  | _, _, _ => some true

def searchCompareListVector (sub : FillVector α) : ℕ → List α → Option Bool
  | _, [] => some true
  | index, x :: main =>
    if index = end1 then some true
    else (sub.aref index).bind fun y =>
      if p y x then searchCompareListVector sub (index + 1) main else some false

def searchCompareVectorList (main : FillVector α) : ℕ → ℕ → List α → Option Bool
  | _, _, [] => some true
  | jndex, index, y :: sub =>
    if end1 = jndex then some true
    else (main.aref index).bind fun x =>
      if p y x then searchCompareVectorList main (jndex + 1) (index + 1) sub else some false

def searchCompareVectorVector (main sub : FillVector α) : ℕ → ℕ → ℕ → Option Bool
  | 0, _, _ => none
  | fuel + 1, index, subIndex =>
    if subIndex = end1 then some true
    else (sub.aref subIndex).bind fun y => (main.aref index).bind fun x =>
      if p y x then searchCompareVectorVector main sub fuel (index + 1) (subIndex + 1)
      else some false

/-- `search-compare`; a list is given by its rest from the index on. -/
def searchCompare (sub : Sequence α) (start1 fuel : ℕ) (main : Sequence α) (index : ℕ) :
    Option Bool :=
  match main, sub with
  | .list main, .list sub => searchCompareListList p end1 start1 main (sub.drop start1)
  | .list main, .vector sub => searchCompareListVector p end1 sub start1 main
  | .vector main, .list sub => searchCompareVectorList p end1 main start1 index (sub.drop start1)
  | .vector main, .vector sub => searchCompareVectorVector p end1 main sub fuel index start1

end Compare

/-! ## The search -/

/-- The `do` loop of `list-search` and `vector-search`; `main` changes from round to round. -/
def searchLoop (compare : σ → ℕ → Option Bool) (cdr : σ → σ) (fromEnd : Bool) (terminus : ℤ) :
    ℕ → σ → ℕ → Option ℕ → Option (Option ℕ)
  | 0, _, _, _ => none
  | fuel + 1, main, index2, lastMatch =>
    if index2 > terminus then some lastMatch
    else (compare main index2).bind fun found =>
      if found then
        if fromEnd then searchLoop compare cdr fromEnd terminus fuel (cdr main) (index2 + 1) index2
        else some (some index2)
      else searchLoop compare cdr fromEnd terminus fuel (cdr main) (index2 + 1) lastMatch

structure Bounds where
  fromEnd : Bool
  start1 : ℕ
  end1 : Option ℕ
  start2 : ℕ
  end2 : Option ℕ

def search (b : Bounds) (fuel : ℕ) (test : α → α → Bool) (testNot : Option (α → α → Bool))
    (key : Option (α → α)) (sequence1 sequence2 : Sequence α) : Option (Option ℕ) :=
  let end1 := b.end1.getD sequence1.length
  let end2 := b.end2.getD sequence2.length
  let terminus : ℤ := end2 - (end1 - b.start1)
  let compare := searchCompare (compareElements test testNot key) end1 sequence1 b.start1 fuel
  match sequence2 with
  | .list main => searchLoop (fun main => compare (.list main)) List.tail b.fromEnd terminus fuel
      (main.drop b.start2) b.start2 none
  | .vector main => searchLoop (fun _ => compare (.vector main)) id b.fromEnd terminus fuel ()
      b.start2 none

/-! ## What is to be found -/

/-- The `n` elements of the first sequence from `start1` on match those of the second at `i`. -/
def Matches (p : α → α → Bool) (xs ys : List α) (start1 n i : ℕ) : Prop :=
  ∀ k < n, ∀ x y, xs[start1 + k]? = some x → ys[i + k]? = some y → p x y = true

/-- The least place, or the greatest. -/
def Occurrence (q : ℕ → Prop) (fromEnd : Bool) (start2 end2 n : ℕ) : Option ℕ → Prop
  | none => ∀ i, start2 ≤ i → i + n ≤ end2 → ¬q i
  | some i => start2 ≤ i ∧ i + n ≤ end2 ∧ q i ∧
      ∀ j, start2 ≤ j → j + n ≤ end2 → q j → if fromEnd then j ≤ i else i ≤ j

/-! ## Every comparison is complete -/

section Compare

variable {p : α → α → Bool} {end1 : ℕ}

theorem matches_succ {xs ys : List α} {start1 n i : ℕ} {x y : α} (hx : xs[start1]? = some x)
    (hy : ys[i]? = some y) : Matches p xs ys start1 (n + 1) i ↔
      p x y = true ∧ Matches p xs ys (start1 + 1) n (i + 1) := by
  constructor
  · refine fun h => ⟨h 0 (Nat.succ_pos n) x y hx hy, fun k hk x' y' hx' hy' => ?_⟩
    refine h (k + 1) (Nat.succ_lt_succ hk) x' y' ?_ ?_
    · rwa [Nat.add_comm k, ← Nat.add_assoc]
    · rwa [Nat.add_comm k, ← Nat.add_assoc]
  · rintro ⟨hp, h⟩ k hk x' y' hx' hy'
    cases k with
    | zero =>
      cases hx.symm.trans hx'
      cases hy.symm.trans hy'
      exact hp
    | succ k =>
      refine h k (Nat.lt_of_succ_lt_succ hk) x' y' ?_ ?_
      · rwa [Nat.add_assoc, Nat.add_comm 1]
      · rwa [Nat.add_assoc, Nat.add_comm 1]

/-- What a comparison is to return. -/
def Compares (p : α → α → Bool) (xs ys : List α) (start1 n i : ℕ) (out : Option Bool) : Prop :=
  ∃ found, out = some found ∧ (found = true ↔ Matches p xs ys start1 n i)

theorem compares_zero (xs ys : List α) (start1 i : ℕ) :
    Compares p xs ys start1 0 i (some true) :=
  ⟨true, rfl, iff_of_true rfl fun _ hk => absurd hk (Nat.not_lt_zero _)⟩

theorem Compares.succ {xs ys : List α} {start1 n i : ℕ} {x y : α} {out : Option Bool}
    (hx : xs[start1]? = some x) (hy : ys[i]? = some y)
    (hrest : Compares p xs ys (start1 + 1) n (i + 1) out) :
    Compares p xs ys start1 (n + 1) i (if p x y then out else some false) := by
  rw [Compares, matches_succ hx hy]
  obtain ⟨found, rfl, hfound⟩ := hrest
  by_cases hp : p x y = true
  · rw [if_pos hp]
    exact ⟨found, rfl, by rw [hfound, and_iff_right hp]⟩
  · rw [if_neg hp]
    exact ⟨false, rfl, by simp [hp]⟩

theorem drop_cons {xs : List α} {i : ℕ} (hi : i < xs.length) :
    ∃ x, xs[i]? = some x ∧ xs.drop i = x :: xs.drop (i + 1) :=
  ⟨_, List.getElem?_eq_getElem hi, List.drop_eq_getElem_cons hi⟩

theorem compares_listList (xs ys : List α) : ∀ {n jndex i : ℕ}, jndex + n = end1 →
    end1 ≤ xs.length → i + n ≤ ys.length → Compares p xs ys jndex n i
      (searchCompareListList p end1 jndex (ys.drop i) (xs.drop jndex))
  | 0, jndex, i, hend, _, _ => by
    have hstop : searchCompareListList p end1 jndex (ys.drop i) (xs.drop jndex) = some true := by
      cases ys.drop i <;> cases xs.drop jndex <;> simp [searchCompareListList, ← hend]
    rw [hstop]
    exact compares_zero ..
  | n + 1, jndex, i, hend, hxs, hys => by
    obtain ⟨x, hx, hdrop⟩ := drop_cons (show jndex < xs.length by omega)
    obtain ⟨y, hy, hdrop'⟩ := drop_cons (show i < ys.length by omega)
    rw [hdrop, hdrop', searchCompareListList, if_neg (by omega)]
    exact (compares_listList xs ys (by omega) hxs (by omega)).succ hx hy

theorem FillVector.aref_eq {v : FillVector α} {i : ℕ} {x : α}
    (hx : (Sequence.vector v).elements[i]? = some x) : v.aref i = some x := by
  rw [Sequence.elements, List.getElem?_take] at hx
  rw [FillVector.aref, if_pos (Int.natCast_nonneg _)]
  split at hx
  · exact hx
  · cases hx

theorem compares_listVector (sub : FillVector α) (ys : List α) : ∀ {n index i : ℕ},
    index + n = end1 → end1 ≤ (Sequence.vector sub).elements.length → i + n ≤ ys.length →
    Compares p (Sequence.vector sub).elements ys index n i
      (searchCompareListVector p end1 sub index (ys.drop i))
  | 0, index, i, hend, _, _ => by
    have hstop : searchCompareListVector p end1 sub index (ys.drop i) = some true := by
      cases ys.drop i <;> simp [searchCompareListVector, ← hend]
    rw [hstop]
    exact compares_zero ..
  | n + 1, index, i, hend, hxs, hys => by
    obtain ⟨x, hx, -⟩ := drop_cons (show index < (Sequence.vector sub).elements.length by omega)
    obtain ⟨y, hy, hdrop⟩ := drop_cons (show i < ys.length by omega)
    rw [hdrop, searchCompareListVector, if_neg (by omega), FillVector.aref_eq hx]
    exact (compares_listVector sub ys (by omega) hxs (by omega)).succ hx hy

theorem compares_vectorList (main : FillVector α) (xs : List α) : ∀ {n jndex i : ℕ},
    jndex + n = end1 → end1 ≤ xs.length → i + n ≤ (Sequence.vector main).elements.length →
    Compares p xs (Sequence.vector main).elements jndex n i
      (searchCompareVectorList p end1 main jndex i (xs.drop jndex))
  | 0, jndex, i, hend, _, _ => by
    have hstop : searchCompareVectorList p end1 main jndex i (xs.drop jndex) = some true := by
      cases xs.drop jndex <;> simp [searchCompareVectorList, ← hend]
    rw [hstop]
    exact compares_zero ..
  | n + 1, jndex, i, hend, hxs, hys => by
    obtain ⟨x, hx, hdrop⟩ := drop_cons (show jndex < xs.length by omega)
    obtain ⟨y, hy, -⟩ := drop_cons (show i < (Sequence.vector main).elements.length by omega)
    rw [hdrop, searchCompareVectorList, if_neg (by omega), FillVector.aref_eq hy]
    exact (compares_vectorList main xs (by omega) hxs (by omega)).succ hx hy

theorem compares_vectorVector (main sub : FillVector α) : ∀ {n fuel index i : ℕ}, n < fuel →
    index + n = end1 → end1 ≤ (Sequence.vector sub).elements.length →
    i + n ≤ (Sequence.vector main).elements.length →
    Compares p (Sequence.vector sub).elements (Sequence.vector main).elements index n i
      (searchCompareVectorVector p end1 main sub fuel i index)
  | _, 0, _, _, hfuel, _, _, _ => absurd hfuel (Nat.not_lt_zero _)
  | 0, fuel + 1, index, i, _, hend, _, _ => by
    rw [searchCompareVectorVector, if_pos (by omega)]
    exact compares_zero ..
  | n + 1, fuel + 1, index, i, hfuel, hend, hxs, hys => by
    obtain ⟨x, hx, -⟩ := drop_cons (show index < (Sequence.vector sub).elements.length by omega)
    obtain ⟨y, hy, -⟩ := drop_cons (show i < (Sequence.vector main).elements.length by omega)
    rw [searchCompareVectorVector, if_neg (by omega), FillVector.aref_eq hx, FillVector.aref_eq hy]
    exact (compares_vectorVector main sub (by omega) (by omega) hxs (by omega)).succ hx hy

end Compare

/-! ## The loop over the places -/

section Loop

variable {q : ℕ → Prop} {fromEnd : Bool} {start2 end2 n : ℕ}

/-- The places before `index2` have been tried. -/
def Tried (q : ℕ → Prop) (fromEnd : Bool) (start2 end2 n index2 : ℕ) : Option ℕ → Prop
  | none => ∀ j, start2 ≤ j → j < index2 → ¬q j
  | some i => fromEnd = true ∧ start2 ≤ i ∧ i + n ≤ end2 ∧ q i ∧
      ∀ j, start2 ≤ j → j < index2 → q j → j ≤ i

theorem searchLoop_spec {compare : σ → ℕ → Option Bool} {cdr : σ → σ} (rest : ℕ → σ)
    (hcdr : ∀ i, cdr (rest i) = rest (i + 1))
    (hcompare : ∀ i, i + n ≤ end2 → ∃ found, compare (rest i) i = some found ∧ (found = true ↔ q i)) :
    ∀ {fuel index2 : ℕ} {lastMatch : Option ℕ}, end2 + 1 - n - index2 < fuel → start2 ≤ index2 →
      Tried q fromEnd start2 end2 n index2 lastMatch →
      ∃ o, searchLoop compare cdr fromEnd (end2 - n) fuel (rest index2) index2 lastMatch = some o ∧
        Occurrence q fromEnd start2 end2 n o
  | 0, _, _, hfuel, _, _ => absurd hfuel (Nat.not_lt_zero _)
  | fuel + 1, index2, lastMatch, hfuel, hstart, htried => by
    rw [searchLoop]
    by_cases hdone : (index2 : ℤ) > end2 - n
    · rw [if_pos hdone]
      refine ⟨lastMatch, rfl, ?_⟩
      cases lastMatch with
      | none => exact fun j hj hj' => htried j hj (by omega)
      | some i =>
        obtain ⟨hfromEnd, hi, hi', hq, hmax⟩ := htried
        refine ⟨hi, hi', hq, fun j hj hj' hqj => ?_⟩
        rw [if_pos hfromEnd]
        exact hmax j hj (by omega) hqj
    · rw [if_neg hdone]
      obtain ⟨found, hfound, hiff⟩ := hcompare index2 (by omega)
      rw [hfound, Option.bind_some, hcdr]
      cases found with
      | false =>
        have hnot : ¬q index2 := fun hq => Bool.noConfusion (hiff.2 hq)
        refine searchLoop_spec rest hcdr hcompare (by omega) (by omega) ?_
        cases lastMatch with
        | none =>
          intro j hj hj'
          rcases Nat.lt_succ_iff_lt_or_eq.1 hj' with hlt | rfl
          · exact htried j hj hlt
          · exact hnot
        | some i =>
          obtain ⟨hfromEnd, hi, hi', hq, hmax⟩ := htried
          refine ⟨hfromEnd, hi, hi', hq, fun j hj hj' hqj => ?_⟩
          rcases Nat.lt_succ_iff_lt_or_eq.1 hj' with hlt | rfl
          · exact hmax j hj hlt hqj
          · exact absurd hqj hnot
      | true =>
        have hq := hiff.1 rfl
        rw [if_pos rfl]
        by_cases hfromEnd : fromEnd = true
        · rw [if_pos hfromEnd]
          exact searchLoop_spec rest hcdr hcompare (by omega) (by omega)
            ⟨hfromEnd, hstart, by omega, hq, fun j _ hj' _ => Nat.le_of_lt_succ hj'⟩
        · rw [if_neg hfromEnd]
          refine ⟨some index2, rfl, hstart, by omega, hq, fun j hj _ hqj => ?_⟩
          rw [if_neg hfromEnd]
          cases lastMatch with
          | none => exact Nat.le_of_not_lt fun hlt => htried j hj hlt hqj
          | some i => exact absurd htried.1 hfromEnd

theorem Occurrence.of_empty {p : α → α → Bool} {xs ys : List α} {start1 : ℕ} {o : Option ℕ}
    (hle : start2 ≤ end2) (ho : Occurrence (Matches p xs ys start1 0) fromEnd start2 end2 0 o) :
    o = some (if fromEnd then end2 else start2) := by
  have hall : ∀ i, Matches p xs ys start1 0 i := fun i k hk => absurd hk (Nat.not_lt_zero k)
  cases o with
  | none => exact absurd (hall start2) (ho start2 le_rfl hle)
  | some i =>
    obtain ⟨hi, hi', -, hbest⟩ := ho
    have hfirst := hbest start2 le_rfl hle (hall _)
    have hlast := hbest end2 hle le_rfl (hall _)
    congr 1
    split at hfirst
    · rw [if_pos ‹_›] at hlast ⊢
      omega
    · rw [if_neg ‹_›]
      omega

end Loop

/-! ## All sequences -/

/-- **`search` finds the place**, for lists and vectors in any combination. -/
theorem search_finds (b : Bounds) (test : α → α → Bool) (testNot : Option (α → α → Bool))
    (key : Option (α → α)) {sequence1 sequence2 : Sequence α} {end1 end2 : ℕ}
    (hend1 : b.end1.getD sequence1.length = end1) (hend2 : b.end2.getD sequence2.length = end2)
    (h1 : b.start1 ≤ end1) (h1' : end1 ≤ sequence1.length) (h2 : b.start2 ≤ end2)
    (h2' : end2 ≤ sequence2.length) : ∃ rounds, ∀ fuel ≥ rounds, ∃ o,
      search b fuel test testNot key sequence1 sequence2 = some o ∧
      Occurrence (Matches (compareElements test testNot key) sequence1.elements sequence2.elements
        b.start1 (end1 - b.start1)) b.fromEnd b.start2 end2 (end1 - b.start1) o ∧
      (b.start1 = end1 → o = some (if b.fromEnd then end2 else b.start2)) := by
  suffices hfinds : ∃ rounds, ∀ fuel ≥ rounds, ∃ o,
      search b fuel test testNot key sequence1 sequence2 = some o ∧
      Occurrence (Matches (compareElements test testNot key) sequence1.elements sequence2.elements
        b.start1 (end1 - b.start1)) b.fromEnd b.start2 end2 (end1 - b.start1) o by
    obtain ⟨rounds, hfinds⟩ := hfinds
    refine ⟨rounds, fun fuel hfuel => ?_⟩
    obtain ⟨o, hsearch, ho⟩ := hfinds fuel hfuel
    refine ⟨o, hsearch, ho, fun hempty => ?_⟩
    rw [hempty, Nat.sub_self] at ho
    exact ho.of_empty h2
  refine ⟨end1 + end2 + 2, fun fuel hfuel => ?_⟩
  set n := end1 - b.start1 with hn
  have hterminus : (end2 : ℤ) - (end1 - b.start1) = end2 - n := by omega
  rw [← sequence1.length_elements] at h1'
  rw [← sequence2.length_elements] at h2'
  simp only [search, hend1, hend2, hterminus]
  cases sequence2 with
  | list main =>
    refine searchLoop_spec (fun i => main.drop i) (fun _ => List.tail_drop) ?_
      (by omega) le_rfl fun j hj hj' => absurd hj (Nat.not_le_of_lt hj')
    intro i hi
    cases sequence1 with
    | list sub => exact compares_listList sub main (by omega) h1' (hi.trans h2')
    | vector sub => exact compares_listVector sub main (by omega) h1' (hi.trans h2')
  | vector main =>
    refine searchLoop_spec (fun _ => ()) (fun _ => rfl) ?_
      (by omega) le_rfl fun j hj hj' => absurd hj (Nat.not_le_of_lt hj')
    intro i hi
    cases sequence1 with
    | list sub => exact compares_vectorList main sub (by omega) h1' (hi.trans h2')
    | vector sub => exact compares_vectorVector main sub (by omega) (by omega) h1' (hi.trans h2')

/-- One element, from the end. -/
theorem search_finds_last : ∃ rounds, ∀ fuel ≥ rounds, ∃ o,
    search ⟨true, 0, none, 0, none⟩ fuel (· == ·) none none (.list [2]) (.list [1, 2, 2]) = some o ∧
    Occurrence (Matches (compareElements (· == ·) none none) [2] [1, 2, 2] 0 1) true 0 3 1 o ∧
      (0 = 1 → o = some 3) :=
  search_finds ⟨true, 0, none, 0, none⟩ (· == ·) none none rfl rfl (by decide) (by decide)
    (by decide) (by decide)

end Xcl.Sequences
