import Xcl.Sequences.Search

/-!
# `mismatch`

* **`mismatch_iff`**: the position is right unless the walk ends and the first start is not 0.
-/

namespace Xcl.Sequences

variable {α β σ : Type}

/-! ## Walks -/

section Walk

variable (body : α → σ → Option (β ⊕ σ)) (result : β)

/-- The second loop of `do-sublist` with `from-end`. The body returns, or goes on. -/
def walk : List α → σ → Option β
  | [], _ => some result
  | x :: rest, s => (body x s).bind fun
    | .inl r => some r
    | .inr s => walk rest s

/-- The loop of `do-sublist` from the start. -/
def doSublist (stop : ℕ) : ℕ → List α → σ → Option β
  | i, xs, s =>
    if i ≥ stop then some result
    else match xs with
      | [] => none
      | x :: rest => (body x s).bind fun
        | .inl r => some r
        | .inr s => doSublist stop (i + 1) rest s

/-- The loop of `do-subvector`. -/
def doSubvector (v : FillVector α) (step limit : ℤ) : ℕ → ℤ → σ → Option β
  | 0, _, _ => none
  | fuel + 1, i, s =>
    if i = limit then some result
    else (v.aref i).bind fun x => (body x s).bind fun
      | .inl r => some r
      | .inr s => doSubvector v step limit fuel (i + step) s

end Walk

/-- The first loop of `do-sublist` with `from-end`. -/
def reversedSublist (stop : ℕ) : ℕ → List α → List α → List α
  | _, [], rev => rev
  | i, x :: xs, rev => if i ≥ stop then rev else reversedSublist stop (i + 1) xs (x :: rev)

def doSubsequence (body : α → σ → Option (β ⊕ σ)) (result : β) (fuel : ℕ) (s : Sequence α)
    (start stop : ℕ) (fromEnd : Bool) (init : σ) : Option β :=
  match s with
  | .list xs =>
    if fromEnd then walk body result (reversedSublist stop start (xs.drop start) []) init
    else doSublist body result stop start (xs.drop start) init
  | .vector v =>
    doSubvector body result v (if fromEnd then -1 else 1) (if fromEnd then start - 1 else stop) fuel
      (if fromEnd then stop - 1 else start) init

/-- The state of the closure that `make-iterator` returns. -/
inductive Iterator (α : Type)
  | list (x : List α)
  | vector (v : FillVector α) (i step : ℤ)

def makeIterator (s : Sequence α) (start stop : ℕ) (fromEnd : Bool) : Iterator α :=
  match s with
  | .list xs => .list (if fromEnd then xs.reverse.drop (xs.length - stop) else xs.drop start)
  | .vector v => .vector v (if fromEnd then stop - 1 else start) (if fromEnd then -1 else 1)

/-- A call of the closure, before the end of a list. -/
def Iterator.get : Iterator α → Option (α × Iterator α)
  | .list [] => none
  | .list (x :: xs) => some (x, .list xs)
  | .vector v i step => (v.aref i).map fun x => (x, .vector v (i + step) step)

/-! ## `mismatch` -/

/-- `dotimes` up to the first index with different elements. -/
def dotimes (differ : ℕ → Option Bool) : ℕ → ℕ → Option (Option ℤ)
  | 0, _ => some none
  | n + 1, i => (differ i).bind fun d => if d then some (some i) else dotimes differ n (i + 1)

/-- `dotimes` over two lists. -/
def dotimesLists (eql : α → α → Bool) : ℕ → ℕ → List α → List α → Option (Option ℤ)
  | 0, _, _, _ => some none
  | n + 1, i, x :: list1, y :: list2 =>
    if eql x y then dotimesLists eql n (i + 1) list1 list2 else some (some i)
  | _ + 1, _, _, _ => none

def Sequence.elt : Sequence α → ℕ → Option α
  | .list xs, i => xs[i]?
  | .vector v, i => v.elt i

/-- The loops of `trivial-mismatch`. Simple strings are vectors here. -/
def trivialDifference (eql : α → α → Bool) (length : ℕ) :
    Sequence α → Sequence α → Option (Option ℤ)
  | .vector v1, .vector v2 => dotimes (fun i =>
      (v1.aref i).bind fun x => (v2.aref i).map fun y => !eql x y) length 0
  | .list list1, .list list2 => dotimesLists eql length 0 list1 list2
  | s1, s2 => dotimes (fun i =>
      (s1.elt i).bind fun x => (s2.elt i).map fun y => !eql x y) length 0

def trivialMismatch (eql : α → α → Bool) (s1 s2 : Sequence α) : Option (Option ℤ) :=
  let length := min s1.length s2.length
  (trivialDifference eql length s1 s2).map fun i =>
    i.or (if s1.length = s2.length then none else some (length : ℤ))

/-- The body of the walk: the iterator of the second sequence and `i1` are its state. -/
def mismatchBody (p : α → α → Bool) (fromEnd : Bool) (element1 : α) (s : Iterator α × ℤ) :
    Option (Option ℤ ⊕ Iterator α × ℤ) :=
  s.1.get.map fun (element2, get2) =>
    if p element1 element2 then .inr (get2, s.2 + if fromEnd then -1 else 1)
    else .inl (some (if fromEnd then s.2 + 1 else s.2))

/-- The general path. -/
def mismatchGeneral (p : α → α → Bool) (b : Bounds) (fuel : ℕ) (s1 s2 : Sequence α) :
    Option (Option ℤ) :=
  let end1 := b.end1.getD s1.length
  let end2 := b.end2.getD s2.length
  let width1 := end1 - b.start1
  let width2 := end2 - b.start2
  let width := min width1 width2
  let result : Option ℤ :=
    if width1 = width2 then none
    else if width1 < width2 then some (if b.fromEnd then 0 else end1)
    else some (if b.fromEnd then end1 - width2 else b.start1 + width2)
  doSubsequence (mismatchBody p b.fromEnd) result fuel s1
    (if b.fromEnd then end1 - width else b.start1) (if b.fromEnd then end1 else b.start1 + width)
    b.fromEnd (makeIterator s2 b.start2 end2 b.fromEnd, if b.fromEnd then end1 - 1 else b.start1)

/-- `mismatch`; no test stands for the function `eql`. -/
def mismatch (eql : α → α → Bool) (b : Bounds) (fuel : ℕ) (test testNot : Option (α → α → Bool))
    (key : Option (α → α)) (s1 s2 : Sequence α) : Option (Option ℤ) :=
  if b.fromEnd = false ∧ test.isNone ∧ testNot.isNone ∧ key.isNone ∧ b.start1 = 0 ∧ b.start2 = 0 ∧
      b.end1 = none ∧ b.end2 = none then trivialMismatch eql s1 s2
  else mismatchGeneral (compareElements (test.getD eql) testNot key) b fuel s1 s2

/-! ## What is to be returned -/

/-- The elements of the bounds, from the side on which the comparison begins. -/
def Sequence.side (s : Sequence α) (start stop : ℕ) (fromEnd : Bool) : List α :=
  let part := (s.elements.take stop).drop start
  if fromEnd then part.reverse else part

/-- The elements at `k` match. -/
def MatchAt (p : α → α → Bool) (xs ys : List α) (k : ℕ) : Prop :=
  ∃ x y, xs[k]? = some x ∧ ys[k]? = some y ∧ p x y = true

/-- Nothing if all elements match; or the place of the first that differ or that only one has. -/
def IsMismatch (p : α → α → Bool) (xs ys : List α) (place : ℕ → ℤ) : Option ℤ → Prop
  | none => xs.length = ys.length ∧ ∀ k < xs.length, MatchAt p xs ys k
  | some i => ∃ k, i = place k ∧ (k < xs.length ∨ k < ys.length) ∧ ¬MatchAt p xs ys k ∧
      ∀ j < k, MatchAt p xs ys j

/-! ## Every walk goes through the elements of the bounds -/

section Proofs

variable {p : α → α → Bool} {body : α → σ → Option (β ⊕ σ)} {result : β}

theorem length_side {s : Sequence α} {start stop : ℕ} (hstop : stop ≤ s.length) (fromEnd : Bool) :
    (s.side start stop fromEnd).length = stop - start := by
  rw [← s.length_elements] at hstop
  cases fromEnd <;> simp [Sequence.side, hstop]

theorem getElem?_side {s : Sequence α} {start stop k : ℕ} (hstop : stop ≤ s.length)
    (hk : k < stop - start) (fromEnd : Bool) : (s.side start stop fromEnd)[k]? =
      s.elements[visited fromEnd start stop k]? := by
  have hlength : (s.side start stop false).length = stop - start := length_side hstop false
  rw [← s.length_elements] at hstop
  cases fromEnd with
  | false =>
    simp only [Sequence.side, visited, Bool.false_eq_true, if_false, List.getElem?_drop]
    rw [List.getElem?_take_of_lt (by omega)]
  | true =>
    simp only [Sequence.side, Bool.false_eq_true, if_false] at hlength
    simp only [Sequence.side, visited, if_true]
    rw [List.getElem?_reverse (by omega), hlength, List.getElem?_drop,
      List.getElem?_take_of_lt (by omega)]
    congr 1
    omega

theorem aref_visited {v : FillVector α} {start stop k : ℕ} {fromEnd : Bool} {x : α}
    (hstop : stop ≤ v.fillPointer)
    (hx : ((Sequence.vector v).side start stop fromEnd)[k]? = some x) :
    v.aref ((if fromEnd then (stop : ℤ) - 1 else start) + k * if fromEnd then -1 else 1) =
      some x := by
  obtain ⟨hk, -⟩ := List.getElem?_eq_some_iff.1 hx
  rw [length_side hstop] at hk
  rw [getElem?_side hstop hk] at hx
  rw [← FillVector.aref_eq hx]
  cases fromEnd <;> simp only [visited, if_true, Bool.false_eq_true, if_false] <;> congr 1 <;> omega

theorem doSublist_eq {stop : ℕ} : ∀ {xs : List α} {i : ℕ} {s : σ}, stop ≤ i + xs.length →
    doSublist body result stop i xs s = walk body result (xs.take (stop - i)) s
  | [], i, s, hstop => by
    rw [doSublist, if_pos (by simpa using hstop), List.take_nil, walk]
  | x :: xs, i, s, hstop => by
    rw [List.length_cons] at hstop
    by_cases hi : i ≥ stop
    · rw [doSublist, if_pos hi, Nat.sub_eq_zero_of_le hi, List.take_zero, walk]
    · rw [doSublist, if_neg hi, show stop - i = stop - (i + 1) + 1 by omega, List.take_succ_cons,
        walk]
      refine congrArg _ (funext fun out => ?_)
      cases out with
      | inl r => rfl
      | inr s => exact doSublist_eq (by omega)

theorem reversedSublist_eq {stop : ℕ} : ∀ {xs : List α} {i : ℕ} {rev : List α},
    reversedSublist stop i xs rev = (xs.take (stop - i)).reverse ++ rev
  | [], _, _ => by rw [List.take_nil]; rfl
  | x :: xs, i, rev => by
    by_cases hi : i ≥ stop
    · rw [reversedSublist, if_pos hi, Nat.sub_eq_zero_of_le hi]
      rfl
    · rw [reversedSublist, if_neg hi, reversedSublist_eq,
        show stop - i = stop - (i + 1) + 1 by omega, List.take_succ_cons, List.reverse_cons,
        List.append_assoc]
      rfl

theorem doSubvector_eq {v : FillVector α} {step limit : ℤ} (hstep : step ≠ 0) :
    ∀ {xs : List α} {fuel : ℕ} {i : ℤ} {s : σ}, xs.length < fuel → limit = i + xs.length * step →
      (∀ (k : ℕ) x, xs[k]? = some x → v.aref (i + k * step) = some x) →
      doSubvector body result v step limit fuel i s = walk body result xs s
  | _, 0, _, _, hfuel, _, _ => absurd hfuel (Nat.not_lt_zero _)
  | [], fuel + 1, i, s, _, hlimit, _ => by
    rw [doSubvector, if_pos (by simp [hlimit]), walk]
  | x :: xs, fuel + 1, i, s, hfuel, hlimit, haref => by
    have hfirst := haref 0 x rfl
    rw [Nat.cast_zero, zero_mul, add_zero] at hfirst
    rw [doSubvector, if_neg (index_ne hstep hlimit), hfirst, Option.bind_some, walk]
    refine congrArg _ (funext fun out => ?_)
    cases out with
    | inl r => rfl
    | inr s =>
      refine doSubvector_eq hstep (Nat.lt_of_succ_lt_succ hfuel) ?_ fun k y hy => ?_
      · rw [hlimit, shift_index, List.length_cons]
      · rw [shift_index]
        exact haref (k + 1) y hy

theorem doSubsequence_eq {s : Sequence α} {start stop fuel : ℕ} (hstart : start ≤ stop)
    (hstop : stop ≤ s.length) (hfuel : stop < fuel) (fromEnd : Bool) (init : σ) :
    doSubsequence body result fuel s start stop fromEnd init =
      walk body result (s.side start stop fromEnd) init := by
  cases s with
  | list xs =>
    have hpart : (xs.drop start).take (stop - start) = (xs.take stop).drop start :=
      (List.drop_take ..).symm
    have hlength : stop ≤ start + (xs.drop start).length := by
      have : stop ≤ xs.length := hstop
      rw [List.length_drop]
      omega
    cases fromEnd with
    | false =>
      refine (doSublist_eq hlength).trans ?_
      rw [hpart]
      rfl
    | true =>
      rw [doSubsequence, if_pos rfl, reversedSublist_eq, hpart, List.append_nil]
      rfl
  | vector v =>
    have hlength : ((Sequence.vector v).side start stop fromEnd).length = stop - start :=
      length_side hstop fromEnd
    refine doSubvector_eq (by cases fromEnd <;> decide) (by omega) ?_ fun k x hx =>
      aref_visited hstop hx
    rw [hlength]
    cases fromEnd <;> simp only [if_true, Bool.false_eq_true, if_false] <;> omega

/-- The iterator returns some elements, one after the other. -/
def Yields : Iterator α → List α → Prop
  | _, [] => True
  | get, y :: ys => ∃ next, get.get = some (y, next) ∧ Yields next ys

theorem yields_list (rest : List α) : ∀ ys : List α, Yields (.list (ys ++ rest)) ys
  | [] => trivial
  | _ :: ys => ⟨_, rfl, yields_list rest ys⟩

theorem yields_vector {v : FillVector α} {step : ℤ} : ∀ {ys : List α} {i : ℤ},
    (∀ (k : ℕ) y, ys[k]? = some y → v.aref (i + k * step) = some y) →
    Yields (.vector v i step) ys
  | [], _, _ => trivial
  | y :: ys, i, haref => by
    have hfirst := haref 0 y rfl
    rw [Nat.cast_zero, zero_mul, add_zero] at hfirst
    refine ⟨_, by rw [Iterator.get, hfirst]; rfl, yields_vector fun k z hz => ?_⟩
    rw [shift_index]
    exact haref (k + 1) z hz

theorem yields_makeIterator {s : Sequence α} {start stop : ℕ} (hstop : stop ≤ s.length)
    (fromEnd : Bool) : Yields (makeIterator s start stop fromEnd) (s.side start stop fromEnd) := by
  cases s with
  | vector v => exact yields_vector fun k y hy => aref_visited hstop hy
  | list xs =>
    have hpart : (xs.take stop).drop start = (xs.drop start).take (stop - start) :=
      List.drop_take ..
    cases fromEnd with
    | false =>
      have hyields := yields_list ((xs.drop start).drop (stop - start)) ((xs.take stop).drop start)
      rwa [hpart, List.take_append_drop, ← hpart] at hyields
    | true =>
      have hyields := yields_list ((xs.take stop).take start).reverse
        ((xs.take stop).drop start).reverse
      have hlength : xs.length - (xs.length - stop) = stop := Nat.sub_sub_self hstop
      rwa [← List.reverse_append, List.take_append_drop, ← hlength, ← List.drop_reverse,
        hlength] at hyields

theorem matchAt_succ {x y : α} {xs ys : List α} {k : ℕ} :
    MatchAt p (x :: xs) (y :: ys) (k + 1) ↔ MatchAt p xs ys k := by
  simp only [MatchAt, List.getElem?_cons_succ]

/-- The first of some elements that differ, or the result if all match. -/
def Scan (p : α → α → Bool) (xs ys : List α) (n : ℕ) (place : ℕ → ℤ) (result r : Option ℤ) : Prop :=
  r = result ∧ (∀ k < n, MatchAt p xs ys k) ∨ ∃ k < n, ¬MatchAt p xs ys k ∧
    (∀ j < k, MatchAt p xs ys j) ∧ r = some (place k)

theorem Scan.unique {xs ys : List α} {n : ℕ} {place : ℕ → ℤ} {result r r' : Option ℤ}
    (h : Scan p xs ys n place result r) (h' : Scan p xs ys n place result r') : r = r' := by
  rcases h with ⟨rfl, hall⟩ | ⟨k, hk, hnot, hbefore, rfl⟩ <;>
    rcases h' with ⟨rfl, hall'⟩ | ⟨k', hk', hnot', hbefore', rfl⟩
  · rfl
  · exact absurd (hall k' hk') hnot'
  · exact absurd (hall' k hk) hnot
  · rcases lt_trichotomy k k' with hlt | rfl | hlt
    · exact absurd (hbefore' k hlt) hnot
    · rfl
    · exact absurd (hbefore k' hlt) hnot'

theorem walk_spec {fromEnd : Bool} {result : Option ℤ} : ∀ {xs ys : List α} {get : Iterator α}
    {i : ℤ}, xs.length ≤ ys.length → Yields get ys →
    ∃ r, walk (mismatchBody p fromEnd) result xs (get, i) = some r ∧
      Scan p xs ys xs.length (fun k => if fromEnd then i - k + 1 else i + k) result r
  | [], _, _, _, _, _ => ⟨result, rfl, Or.inl ⟨rfl, fun k hk => absurd hk (Nat.not_lt_zero k)⟩⟩
  | x :: xs, [], _, _, hlength, _ => absurd hlength (Nat.not_succ_le_zero _)
  | x :: xs, y :: ys, get, i, hlength, ⟨next, hget, hyields⟩ => by
    rw [walk, mismatchBody, hget, Option.map_some, Option.bind_some]
    dsimp only
    by_cases hp : p x y = true
    · rw [if_pos hp]
      have hzero : MatchAt p (x :: xs) (y :: ys) 0 := ⟨x, y, rfl, rfl, hp⟩
      have hcons : ∀ n, (∀ j < n, MatchAt p xs ys j) →
          ∀ j < n + 1, MatchAt p (x :: xs) (y :: ys) j := by
        rintro n h (_ | j) hj
        · exact hzero
        · exact matchAt_succ.2 (h j (Nat.lt_of_succ_lt_succ hj))
      obtain ⟨r, hwalk, hr⟩ := walk_spec (Nat.le_of_succ_le_succ hlength) hyields
      refine ⟨r, hwalk, ?_⟩
      rcases hr with ⟨rfl, hall⟩ | ⟨k, hk, hnot, hbefore, rfl⟩
      · exact Or.inl ⟨rfl, hcons _ hall⟩
      · refine Or.inr ⟨k + 1, Nat.succ_lt_succ hk, mt matchAt_succ.1 hnot, hcons k hbefore, ?_⟩
        cases fromEnd <;> simp <;> ring
    · rw [if_neg hp]
      refine ⟨_, rfl, Or.inr ⟨0, Nat.succ_pos _, ?_, fun j hj => absurd hj (Nat.not_lt_zero j), ?_⟩⟩
      · rintro ⟨x', y', hx, hy, hp'⟩
        cases hx
        cases hy
        exact hp hp'
      · simp

/-- The elements that are compared, when the walk goes through `n` of them. -/
theorem side_take {s : Sequence α} {start stop n : ℕ} (hstart : start ≤ stop)
    (hstop : stop ≤ s.length) (hn : n ≤ stop - start) (fromEnd : Bool) :
    s.side (if fromEnd then stop - n else start) (if fromEnd then stop else start + n) fromEnd =
      (s.side start stop fromEnd).take n := by
  have hlength : (s.side start stop false).length = stop - start := length_side hstop false
  cases fromEnd with
  | false =>
    simp only [Sequence.side, Bool.false_eq_true, if_false]
    rw [List.drop_take, List.drop_take, List.take_take]
    congr 1
    omega
  | true =>
    simp only [Sequence.side, Bool.false_eq_true, if_false] at hlength
    simp only [Sequence.side, if_true]
    rw [List.take_reverse, hlength, List.drop_drop]
    congr 2
    omega

theorem matchAt_take {xs ys : List α} {n k : ℕ} (hk : k < n) :
    MatchAt p (xs.take n) ys k ↔ MatchAt p xs ys k := by
  simp only [MatchAt, List.getElem?_take_of_lt hk]

/-! ## Both paths -/

/-- The result of a walk in which all elements match. -/
def exhausted (fromEnd : Bool) (start1 end1 width1 width2 : ℕ) : Option ℤ :=
  if width1 = width2 then none
  else if width1 < width2 then some (if fromEnd then 0 else end1)
  else some (if fromEnd then end1 - width2 else start1 + width2)

theorem mismatchGeneral_scan {b : Bounds} {s1 s2 : Sequence α} {end1 end2 fuel : ℕ}
    (hend1 : b.end1.getD s1.length = end1) (hend2 : b.end2.getD s2.length = end2)
    (h1 : b.start1 ≤ end1) (h1' : end1 ≤ s1.length) (h2' : end2 ≤ s2.length)
    (hfuel : end1 < fuel) : ∃ r, mismatchGeneral p b fuel s1 s2 = some r ∧
      Scan p (s1.side b.start1 end1 b.fromEnd) (s2.side b.start2 end2 b.fromEnd)
        (min (end1 - b.start1) (end2 - b.start2))
        (fun k => if b.fromEnd then end1 - k else b.start1 + k)
        (exhausted b.fromEnd b.start1 end1 (end1 - b.start1) (end2 - b.start2)) r := by
  set n := min (end1 - b.start1) (end2 - b.start2) with hn
  have hside : (((s1.side b.start1 end1 b.fromEnd).take n).length = n) := by
    rw [List.length_take, length_side h1']
    omega
  obtain ⟨r, hwalk, hscan⟩ := @walk_spec _ p b.fromEnd
    (exhausted b.fromEnd b.start1 end1 (end1 - b.start1) (end2 - b.start2))
    ((s1.side b.start1 end1 b.fromEnd).take n) (s2.side b.start2 end2 b.fromEnd)
    (makeIterator s2 b.start2 end2 b.fromEnd) (if b.fromEnd then end1 - 1 else b.start1)
    (by rw [hside, length_side h2']; omega) (yields_makeIterator h2' _)
  rw [← side_take h1 h1' (Nat.min_le_left _ _)] at hwalk
  refine ⟨r, ?_, ?_⟩
  · simp only [mismatchGeneral, hend1, hend2]
    rw [doSubsequence_eq _ _ _ _ _]
    · exact hwalk
    all_goals split <;> omega
  · rw [hside] at hscan
    rcases hscan with ⟨hr, hall⟩ | ⟨k, hk, hnot, hbefore, hr⟩
    · exact Or.inl ⟨hr, fun k hk => (matchAt_take hk).1 (hall k hk)⟩
    · refine Or.inr ⟨k, hk, mt (matchAt_take hk).2 hnot,
        fun j hj => (matchAt_take (hj.trans hk)).1 (hbefore j hj), ?_⟩
      rw [hr]
      cases b.fromEnd <;> simp only [if_true, Bool.false_eq_true, if_false]
      ring_nf

theorem dotimesLists_eq {eql : α → α → Bool} : ∀ {n i : ℕ} {xs ys : List α}, n ≤ xs.length →
    n ≤ ys.length → dotimesLists eql n i xs ys =
      walk (mismatchBody eql false) none (xs.take n) (.list ys, (i : ℤ))
  | 0, _, _, _, _, _ => rfl
  | n + 1, i, x :: xs, y :: ys, hxs, hys => by
    rw [dotimesLists, List.take_succ_cons, walk, mismatchBody, Iterator.get, Option.map_some,
      dotimesLists_eq (Nat.le_of_succ_le_succ hxs) (Nat.le_of_succ_le_succ hys), Nat.cast_succ]
    dsimp only
    cases eql x y <;> rfl

theorem dotimes_eq {eql : α → α → Bool} {xs ys : List α} {differ : ℕ → Option Bool}
    (hdiffer : ∀ i x y, xs[i]? = some x → ys[i]? = some y → differ i = some (!eql x y)) :
    ∀ {n i : ℕ}, i + n ≤ xs.length → i + n ≤ ys.length →
      dotimes differ n i = dotimesLists eql n i (xs.drop i) (ys.drop i)
  | 0, _, _, _ => rfl
  | n + 1, i, hxs, hys => by
    obtain ⟨x, hx, hdrop⟩ := drop_cons (show i < xs.length by omega)
    obtain ⟨y, hy, hdrop'⟩ := drop_cons (show i < ys.length by omega)
    rw [hdrop, hdrop', dotimes, dotimesLists, hdiffer i x y hx hy, Option.bind_some,
      dotimes_eq hdiffer (by omega) (by omega)]
    cases eql x y <;> rfl

theorem Sequence.elt_eq {s : Sequence α} {i : ℕ} {x : α} (hx : s.elements[i]? = some x) :
    s.elt i = some x := by
  cases s with
  | list xs => exact hx
  | vector v =>
    rw [elements, List.getElem?_take] at hx
    rw [elt, FillVector.elt]
    exact hx

theorem trivialMismatch_scan {eql : α → α → Bool} (s1 s2 : Sequence α) :
    ∃ r, trivialMismatch eql s1 s2 = some r ∧
      Scan eql s1.elements s2.elements (min s1.length s2.length) (fun k => k)
        (exhausted false 0 s1.length s1.length s2.length) r := by
  rw [← s1.length_elements, ← s2.length_elements]
  set n := min s1.elements.length s2.elements.length with hn
  have hn1 : n ≤ s1.elements.length := Nat.min_le_left _ _
  have hn2 : n ≤ s2.elements.length := Nat.min_le_right _ _
  have hlength : (s1.elements.take n).length = n := List.length_take_of_le hn1
  obtain ⟨r, hwalk, hscan⟩ := @walk_spec _ eql false none (s1.elements.take n) s2.elements
    (.list s2.elements) (0 : ℕ) (by rw [hlength]; exact hn2)
    (by simpa using yields_list [] s2.elements)
  rw [← dotimesLists_eq hn1 hn2] at hwalk
  have hdotimes := fun differ hdiffer => (@dotimes_eq _ eql s1.elements s2.elements differ hdiffer
    n 0 (by omega) (by omega)).trans hwalk
  rw [hlength] at hscan
  refine ⟨r.or (exhausted false 0 s1.elements.length s1.elements.length s2.elements.length), ?_, ?_⟩
  · have hend : (if s1.length = s2.length then none else some (n : ℤ)) =
        exhausted false 0 s1.elements.length s1.elements.length s2.elements.length := by
      rw [exhausted, hn, s1.length_elements, s2.length_elements]
      split
      · rfl
      · split <;> simp <;> omega
    have hfound : trivialDifference eql n s1 s2 = some r := by
      cases s1 with
      | list xs =>
        cases s2 with
        | list ys => exact hwalk
        | vector v =>
          refine hdotimes _ fun i x y hx hy => ?_
          rw [Sequence.elt_eq hx, Sequence.elt_eq hy]
          rfl
      | vector v =>
        cases s2 with
        | list ys =>
          refine hdotimes _ fun i x y hx hy => ?_
          rw [Sequence.elt_eq hx, Sequence.elt_eq hy]
          rfl
        | vector v' =>
          refine hdotimes _ fun i x y hx hy => ?_
          rw [FillVector.aref_eq hx, FillVector.aref_eq hy]
          rfl
    rw [← hend, trivialMismatch, ← s1.length_elements, ← s2.length_elements, ← hn, hfound]
    rfl
  · rcases hscan with ⟨rfl, hall⟩ | ⟨k, hk, hnot, hbefore, rfl⟩
    · exact Or.inl ⟨rfl, fun k hk => (matchAt_take hk).1 (hall k hk)⟩
    · refine Or.inr ⟨k, hk, mt (matchAt_take hk).2 hnot,
        fun j hj => (matchAt_take (hj.trans hk)).1 (hbefore j hj), ?_⟩
      simp

/-- What is to be returned is, unless one sequence is exhausted and the result not its end. -/
theorem Scan.isMismatch_iff {xs ys : List α} {place : ℕ → ℤ} {result r : Option ℤ}
    (h : Scan p xs ys (min xs.length ys.length) place result r)
    (hnone : result = none ↔ xs.length = ys.length) : IsMismatch p xs ys place r ↔
      ((∀ k < min xs.length ys.length, MatchAt p xs ys k) → xs.length ≠ ys.length →
        result = some (place (min xs.length ys.length))) := by
  have hwithin : ∀ {k}, MatchAt p xs ys k → k < min xs.length ys.length := by
    rintro k ⟨x, y, hx, hy, -⟩
    exact lt_min (List.getElem?_eq_some_iff.1 hx).1 (List.getElem?_eq_some_iff.1 hy).1
  rcases h with ⟨rfl, hall⟩ | ⟨k, hk, hnot, hbefore, rfl⟩
  · cases r with
    | none =>
      have hlength : xs.length = ys.length := hnone.1 rfl
      rw [← hlength, Nat.min_self] at hall
      exact iff_of_true ⟨hlength, hall⟩ fun _ hne => absurd hlength hne
    | some i =>
      have hlength : xs.length ≠ ys.length := fun heq => nomatch hnone.2 heq
      refine ⟨fun ⟨k, hi, _, hnot, hbefore⟩ _ _ => ?_, fun himp => ?_⟩
      · -- before `k` all match, so that neither is exhausted there
        have hk : k = min xs.length ys.length :=
          le_antisymm (not_lt.1 fun hlt => absurd (hwithin (hbefore _ hlt)) (lt_irrefl _))
            (not_lt.1 fun hlt => hnot (hall k hlt))
        rw [hi, hk]
      · exact ⟨_, Option.some.inj (himp hall hlength), by omega,
          fun hmatch => absurd (hwithin hmatch) (lt_irrefl _), hall⟩
  · exact iff_of_true ⟨k, rfl, Or.inl (hk.trans_le (Nat.min_le_left _ _)), hnot, hbefore⟩
      fun hall => absurd (hall k hk) hnot

theorem exhausted_eq_none {fromEnd : Bool} {start1 end1 width1 width2 : ℕ} :
    exhausted fromEnd start1 end1 width1 width2 = none ↔ width1 = width2 := by
  simp only [exhausted]
  split
  · simpa
  · split <;> simpa

theorem exhausted_eq_place {fromEnd : Bool} {start1 end1 width2 : ℕ} (h1 : start1 ≤ end1)
    (hne : end1 - start1 ≠ width2) : exhausted fromEnd start1 end1 (end1 - start1) width2 =
        some (if fromEnd then (end1 : ℤ) - (min (end1 - start1) width2 : ℕ)
          else (start1 : ℤ) + (min (end1 - start1) width2 : ℕ)) ↔
      ¬(fromEnd = true ∧ end1 - start1 < width2 ∧ start1 ≠ 0) := by
  rw [exhausted, if_neg hne]
  rcases lt_or_gt_of_ne hne with hlt | hlt
  · rw [if_pos hlt, Nat.min_eq_left hlt.le]
    cases fromEnd <;> simp [hlt] <;> omega
  · rw [if_neg hlt.not_gt, Nat.min_eq_right hlt.le]
    cases fromEnd <;> simp [hlt.not_gt]

theorem mismatch_eq_general {eql : α → α → Bool} {b : Bounds} {fuel end1 end2 : ℕ}
    {test testNot : Option (α → α → Bool)} {key : Option (α → α)} {s1 s2 : Sequence α}
    (hend1 : b.end1.getD s1.length = end1) (hend2 : b.end2.getD s2.length = end2)
    (h1 : b.start1 ≤ end1) (h1' : end1 ≤ s1.length) (h2' : end2 ≤ s2.length)
    (hfuel : end1 < fuel) : mismatch eql b fuel test testNot key s1 s2 =
      mismatchGeneral (compareElements (test.getD eql) testNot key) b fuel s1 s2 := by
  rw [mismatch]
  split
  · rename_i hdefaults
    obtain ⟨hfromEnd, htest, htestNot, hkey, hstart1, hstart2, hnone1, hnone2⟩ := hdefaults
    obtain ⟨r, hgeneral, hscan⟩ := @mismatchGeneral_scan _
      (compareElements (test.getD eql) testNot key) _ _ _ _ _ _ hend1 hend2 h1 h1' h2' hfuel
    obtain ⟨r', htrivial, hscan'⟩ := @trivialMismatch_scan _ eql s1 s2
    have hcompare : compareElements (test.getD eql) testNot key = eql := by
      rw [Option.isNone_iff_eq_none.1 htest, Option.isNone_iff_eq_none.1 htestNot,
        Option.isNone_iff_eq_none.1 hkey]
      rfl
    rw [hnone1] at hend1
    rw [hnone2] at hend2
    cases hend1
    cases hend2
    have hside : ∀ s : Sequence α, s.side 0 s.length false = s.elements := fun s => by
      rw [← s.length_elements, Sequence.side, List.take_length]
      rfl
    simp only [Option.getD_none, hfromEnd, hstart1, hstart2, hcompare, hside, Nat.sub_zero,
      Nat.cast_zero, zero_add, Bool.false_eq_true, if_false] at hscan
    rw [hgeneral, htrivial, hscan.unique hscan']
  · rfl

end Proofs

/-- **The specified position is returned exactly unless** the walk from the end exhausts the first
sequence and this does not begin at 0. -/
theorem mismatch_iff (eql : α → α → Bool) (b : Bounds) (test testNot : Option (α → α → Bool))
    (key : Option (α → α)) {s1 s2 : Sequence α} {end1 end2 : ℕ}
    (hend1 : b.end1.getD s1.length = end1) (hend2 : b.end2.getD s2.length = end2)
    (h1 : b.start1 ≤ end1) (h1' : end1 ≤ s1.length) (_h2 : b.start2 ≤ end2)
    (h2' : end2 ≤ s2.length) :
    (∃ rounds, ∀ fuel ≥ rounds, ∃ r, mismatch eql b fuel test testNot key s1 s2 = some r ∧
      mismatchGeneral (compareElements (test.getD eql) testNot key) b fuel s1 s2 = some r ∧
      IsMismatch (compareElements (test.getD eql) testNot key) (s1.side b.start1 end1 b.fromEnd)
        (s2.side b.start2 end2 b.fromEnd) (fun k => if b.fromEnd then end1 - k else b.start1 + k)
        r) ↔
    ¬(b.fromEnd = true ∧ end1 - b.start1 < end2 - b.start2 ∧ b.start1 ≠ 0 ∧
      ∀ k < end1 - b.start1, MatchAt (compareElements (test.getD eql) testNot key)
        (s1.side b.start1 end1 b.fromEnd) (s2.side b.start2 end2 b.fromEnd) k) := by
  set p := compareElements (test.getD eql) testNot key
  have hlength1 : (s1.side b.start1 end1 b.fromEnd).length = _ := length_side h1' _
  have hlength2 : (s2.side b.start2 end2 b.fromEnd).length = _ := length_side h2' _
  have hcore : ∀ {fuel r}, end1 < fuel → mismatchGeneral p b fuel s1 s2 = some r →
      (IsMismatch p (s1.side b.start1 end1 b.fromEnd) (s2.side b.start2 end2 b.fromEnd)
        (fun k => if b.fromEnd then end1 - k else b.start1 + k) r ↔
      ¬(b.fromEnd = true ∧ end1 - b.start1 < end2 - b.start2 ∧ b.start1 ≠ 0 ∧
        ∀ k < end1 - b.start1, MatchAt p (s1.side b.start1 end1 b.fromEnd)
          (s2.side b.start2 end2 b.fromEnd) k)) := by
    intro fuel r hfuel hr
    obtain ⟨r', hgeneral, hscan⟩ :=
      @mismatchGeneral_scan _ p _ _ _ _ _ _ hend1 hend2 h1 h1' h2' hfuel
    cases hr.symm.trans hgeneral
    rw [← hlength1, ← hlength2] at hscan
    rw [hscan.isMismatch_iff exhausted_eq_none, hlength1, hlength2]
    constructor
    · rintro himp ⟨hfromEnd, hwidth, hstart, hall⟩
      rw [← Nat.min_eq_left hwidth.le] at hall
      exact (exhausted_eq_place h1 hwidth.ne).1 (himp hall hwidth.ne) ⟨hfromEnd, hwidth, hstart⟩
    · intro hnot hall hne
      refine (exhausted_eq_place h1 hne).2 fun ⟨hfromEnd, hwidth, hstart⟩ => ?_
      rw [Nat.min_eq_left hwidth.le] at hall
      exact hnot ⟨hfromEnd, hwidth, hstart, hall⟩
  constructor
  · rintro ⟨rounds, h⟩
    obtain ⟨r, -, hr, hmismatch⟩ := h (max rounds (end1 + 1)) (Nat.le_max_left _ _)
    exact (hcore (Nat.le_max_right _ _) hr).1 hmismatch
  · refine fun hnot => ⟨end1 + 1, fun fuel hfuel => ?_⟩
    obtain ⟨r, hr, -⟩ := @mismatchGeneral_scan _ p _ _ _ _ _ _ hend1 hend2 h1 h1' h2' hfuel
    exact ⟨r, (mismatch_eq_general hend1 hend2 h1 h1' h2' hfuel).trans hr, hr,
      (hcore hfuel hr).2 hnot⟩

theorem mismatch_iff_suffix : ∃ rounds, ∀ fuel ≥ rounds, ∃ r,
    mismatch (· == ·) ⟨true, 0, none, 0, none⟩ fuel none none none (.list [2]) (.list [1, 2]) =
      some r ∧
    mismatchGeneral (compareElements (· == ·) none none) ⟨true, 0, none, 0, none⟩ fuel (.list [2])
      (.list [1, 2]) = some r ∧
    IsMismatch (compareElements (· == ·) none none) [2] [2, 1] (fun k => 1 - k) r :=
  (@mismatch_iff ℕ (· == ·) ⟨true, 0, none, 0, none⟩ none none none (.list [2]) (.list [1, 2]) 1 2
    rfl rfl (by decide) (by decide) (by decide) (by decide)).2 fun h => h.2.2.1 rfl

/-- `(mismatch '(5 2) '(1 2) :from-end t :start1 1)` is 0 and not 1. -/
theorem not_mismatch_exhausted : (∀ fuel, mismatch (· == ·) ⟨true, 1, none, 0, none⟩ fuel none none
      none (.list [5, 2]) (.list [1, 2]) = some (some 0)) ∧
    IsMismatch (· == ·) ((Sequence.list [5, 2]).side 1 2 true)
      ((Sequence.list [1, 2]).side 0 2 true) (fun k => 2 - k) (some 1) ∧
    ¬IsMismatch (· == ·) ((Sequence.list [5, 2]).side 1 2 true)
      ((Sequence.list [1, 2]).side 0 2 true) (fun k => 2 - k) (some 0) := by
  refine ⟨fun _ => rfl, ⟨1, rfl, Or.inr (by decide), ?_, ?_⟩, ?_⟩
  · rintro ⟨x, y, hx, -, -⟩
    cases hx
  · intro j hj
    cases Nat.lt_one_iff.1 hj
    exact ⟨2, 2, rfl, rfl, rfl⟩
  · rintro ⟨k, hk, hlt, -, -⟩
    have : k < 1 ∨ k < 2 := hlt
    dsimp only at hk
    omega

end Xcl.Sequences
