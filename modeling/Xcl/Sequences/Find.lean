import Mathlib.Tactic

/-!
# `find` and `position`

* `Sequence`: a list, or a vector with a fill pointer;
* **`locaters_agree`**: all functions on lists and vectors, and the loops of the kernel.
-/

namespace Xcl.Sequences

variable {α β : Type}

/-! ## Sequences -/

structure FillVector (α : Type) where
  data : List α
  fillPointer : ℕ
  le : fillPointer ≤ data.length

inductive Sequence (α : Type)
  | list (elements : List α)
  | vector (v : FillVector α)

/-- `aref`, which does not mind the fill pointer; nothing for an index error. -/
def FillVector.aref (v : FillVector α) (index : ℤ) : Option α :=
  if 0 ≤ index then v.data[index.toNat]? else none

def FillVector.elt (v : FillVector α) (index : ℕ) : Option α :=
  if index < v.fillPointer then v.data[index]? else none

namespace Sequence

def elements : Sequence α → List α
  | list xs => xs
  | vector v => v.data.take v.fillPointer

def length : Sequence α → ℕ
  | list xs => xs.length
  | vector v => v.fillPointer

theorem length_elements : ∀ s : Sequence α, s.elements.length = s.length
  | list _ => rfl
  | vector v => by rw [elements, List.length_take, Nat.min_eq_left v.le]; rfl

end Sequence

/-! ## The loops -/

/-- The keyword arguments but the test. -/
structure Keys (α : Type) where
  fromEnd : Bool
  start : ℕ
  stop : Option ℕ
  key : Option (α → α)

/-- `end`, by default the length. -/
def Keys.stopOf (k : Keys α) (s : Sequence α) : ℕ := k.stop.getD s.length

def applyKey (key : Option (α → α)) (x : α) : α := key.elim x (· x)

def locaterTestNot (item : α) (test : α → α → Bool) (testNot : Option (α → α → Bool))
    (key : Option (α → α)) (x : α) : Bool :=
  match testNot with
  | some testNot => !testNot item (applyKey key x)
  | none => test item (applyKey key x)

def locaterIfTest (test : α → Bool) (sense : Bool) (key : Option (α → α)) (x : α) : Bool :=
  if sense then test (applyKey key x) else !test (applyKey key x)

section Loops

variable (p : α → Bool) (ret : ℤ → α → β) (incrementer terminus : ℤ)

/-- The `do` loop of `vector-locater-macro`. The inner value is that of the loop; nothing where it
does not come to its end. -/
def vectorLoop (v : FillVector α) : ℕ → ℤ → Option (Option β)
  | 0, _ => none
  | fuel + 1, index =>
    if index = terminus then some none
    else (v.aref index).bind fun x =>
      if p x then some (some (ret index x)) else vectorLoop v fuel (index + incrementer)

/-- The `do` loops of `list-locater-macro`. -/
def listLoop : ℤ → List α → Option β
  | _, [] => none
  | index, x :: sequence =>
    if index = terminus then none
    else if p x then some (ret index x) else listLoop (index + incrementer) sequence

end Loops

/-- `vector-locater-macro` -/
def vectorLocater (p : α → Bool) (ret : ℤ → α → β) (fromEnd : Bool) (start stop : ℕ)
    (v : FillVector α) (fuel : ℕ) : Option (Option β) :=
  let incrementer := if fromEnd then -1 else 1
  vectorLoop p ret incrementer (if fromEnd then start - 1 else stop) v fuel
    (if fromEnd then stop - 1 else start)

/-- `list-locater-macro` -/
def listLocater (p : α → Bool) (ret : ℤ → α → β) (fromEnd : Bool) (start stop : ℕ)
    (xs : List α) : Option β :=
  if fromEnd then
    listLoop p ret (-1) (start - 1) (stop - 1) (xs.reverse.drop (xs.length - stop))
  else listLoop p ret 1 stop start (xs.drop start)

def locate (p : α → Bool) (ret : ℤ → α → β) (k : Keys α) (fuel : ℕ) (s : Sequence α) :
    Option (Option β) :=
  match s with
  | .list xs => some (listLocater p ret k.fromEnd k.start (k.stopOf s) xs)
  | .vector v => vectorLocater p ret k.fromEnd k.start (k.stopOf s) v fuel

section Functions

variable (k : Keys α) (fuel : ℕ) (s : Sequence α) (nil item : α) (test : α → α → Bool)
  (testNot : Option (α → α → Bool)) (predicate : α → Bool)

def position : Option (Option ℤ) :=
  locate (locaterTestNot item test testNot k.key) (fun index _ => index) k fuel s

def positionIf : Option (Option ℤ) :=
  locate (locaterIfTest predicate true k.key) (fun index _ => index) k fuel s

def positionIfNot : Option (Option ℤ) :=
  locate (locaterIfTest predicate false k.key) (fun index _ => index) k fuel s

def find : Option α :=
  (locate (locaterTestNot item test testNot k.key) (fun _ current => current) k fuel s).map
    (·.getD nil)

def findIf : Option α :=
  (locate (locaterIfTest predicate true k.key) (fun _ current => current) k fuel s).map (·.getD nil)

def findIfNot : Option α :=
  (locate (locaterIfTest predicate false k.key) (fun _ current => current) k fuel s).map
    (·.getD nil)

end Functions

/-! ## The kernel -/

section Kernel

variable (eql : α → α → Bool) (item : α)

def listPositionEql : ℕ → List α → Option ℕ
  | _, [] => none
  | pos, x :: list => if eql item x then some pos else listPositionEql (pos + 1) list

def vectorPositionEql (v : FillVector α) : ℕ → ℕ → Option (Option ℕ)
  | 0, _ => none
  | fuel + 1, pos =>
    if pos < v.fillPointer then (v.aref pos).bind fun x =>
      if eql item x then some (some pos) else vectorPositionEql v fuel (pos + 1)
    else some none

def positionEql (fuel : ℕ) : Sequence α → Option (Option ℕ)
  | .list xs => some (listPositionEql eql item 0 xs)
  | .vector v => vectorPositionEql eql item v fuel 0

def listFindEql (nil : α) : List α → α
  | [] => nil
  | element :: list => if eql item element then element else listFindEql nil list

def vectorFindEql (nil : α) (v : FillVector α) : ℕ → ℕ → Option α
  | 0, _ => none
  | fuel + 1, i =>
    if i < v.fillPointer then (v.elt i).bind fun element =>
      if eql item element then some element else vectorFindEql nil v fuel (i + 1)
    else some nil

def findEql (nil : α) (fuel : ℕ) : Sequence α → Option α
  | .list xs => some (listFindEql eql item nil xs)
  | .vector v => vectorFindEql eql item nil v fuel 0

end Kernel

/-! ## What is to be found -/

/-- The least index, or the greatest, with an element that satisfies the test. -/
def Located (p : α → Bool) (xs : List α) (fromEnd : Bool) (start stop : ℕ) : Option ℕ → Prop
  | none => ∀ i x, start ≤ i → i < stop → xs[i]? = some x → p x = false
  | some i => start ≤ i ∧ i < stop ∧ (∃ x, xs[i]? = some x ∧ p x = true) ∧
      ∀ j x, start ≤ j → j < stop → (if fromEnd then i < j else j < i) → xs[j]? = some x → p x = false

section Proofs

variable {p : α → Bool} {ret : ℤ → α → β} {incrementer terminus : ℤ}

theorem find_range_succ (q : ℕ → Bool) (f : ℕ → β) (n : ℕ) :
    ((List.range (n + 1)).find? q).map f =
      if q 0 then some (f 0) else ((List.range n).find? fun k => q (k + 1)).map fun k => f (k + 1) := by
  rw [List.range_succ_eq_map, List.find?_cons, List.find?_map]
  cases q 0 with
  | true => rfl
  | false =>
    rw [Option.map_map]
    rfl

theorem index_ne {n : ℕ} {index : ℤ} (hinc : incrementer ≠ 0)
    (hstop : terminus = index + (n + 1 : ℕ) * incrementer) : index ≠ terminus := by
  intro heq
  have hzero : ((n + 1 : ℕ) : ℤ) * incrementer = 0 := by linarith
  rcases mul_eq_zero.1 hzero with h | h
  · omega
  · exact hinc h

theorem shift_index (index : ℤ) (k : ℕ) :
    index + incrementer + k * incrementer = index + (k + 1 : ℕ) * incrementer := by
  push_cast
  ring

theorem vectorLoop_eq {v : FillVector α} (e : ℤ → α) (hinc : incrementer ≠ 0) :
    ∀ {n fuel : ℕ} {index : ℤ}, n < fuel → terminus = index + n * incrementer →
      (∀ k < n, v.aref (index + k * incrementer) = some (e (index + k * incrementer))) →
      vectorLoop p ret incrementer terminus v fuel index =
        some (((List.range n).find? fun k : ℕ => p (e (index + k * incrementer))).map fun k : ℕ =>
          ret (index + k * incrementer) (e (index + k * incrementer)))
  | _, 0, _, hfuel, _, _ => absurd hfuel (Nat.not_lt_zero _)
  | 0, fuel + 1, index, _, hstop, _ => by
    rw [vectorLoop, if_pos (by simp [hstop])]
    rfl
  | n + 1, fuel + 1, index, hfuel, hstop, haref => by
    have hfirst := haref 0 (Nat.succ_pos _)
    simp only [Nat.cast_zero, zero_mul, add_zero] at hfirst
    have hrec := @vectorLoop_eq v e hinc n fuel (index + incrementer) (by omega)
      (by rw [shift_index, hstop]) fun k hk => by rw [shift_index]; exact haref _ (by omega)
    simp only [shift_index] at hrec
    rw [vectorLoop, if_neg (index_ne hinc hstop), hfirst, Option.bind_some, find_range_succ, hrec]
    simp only [Nat.cast_zero, zero_mul, add_zero]
    split <;> rfl

theorem listLoop_eq (e : ℤ → α) (hinc : incrementer ≠ 0) :
    ∀ {n : ℕ} {xs : List α} {index : ℤ}, terminus = index + n * incrementer →
      (∀ k < n, xs[k]? = some (e (index + k * incrementer))) →
      listLoop p ret incrementer terminus index xs =
        ((List.range n).find? fun k : ℕ => p (e (index + k * incrementer))).map fun k : ℕ =>
          ret (index + k * incrementer) (e (index + k * incrementer))
  | 0, [], _, _, _ => rfl
  | 0, x :: xs, index, hstop, _ => by
    rw [listLoop, if_pos (by simp [hstop])]
    rfl
  | n + 1, [], _, _, hxs => absurd (hxs 0 (Nat.succ_pos _)) (by simp)
  | n + 1, x :: xs, index, hstop, hxs => by
    have hfirst := hxs 0 (Nat.succ_pos _)
    simp only [Nat.cast_zero, zero_mul, add_zero, List.getElem?_cons_zero, Option.some.injEq]
      at hfirst
    have hrec := @listLoop_eq e hinc n xs (index + incrementer)
      (by rw [shift_index, hstop]) fun k hk => by rw [shift_index]; exact hxs (k + 1) (by omega)
    simp only [shift_index] at hrec
    rw [listLoop, if_neg (index_ne hinc hstop), hfirst, find_range_succ, hrec]
    simp only [Nat.cast_zero, zero_mul, add_zero]

/-- The index of the round `k`. -/
def visited (fromEnd : Bool) (start stop k : ℕ) : ℕ := if fromEnd then stop - 1 - k else start + k

theorem located_find {xs : List α} {start stop : ℕ} (nil : α) (hstart : start ≤ stop)
    (hstop : stop ≤ xs.length) (fromEnd : Bool) : Located p xs fromEnd start stop
      (((List.range (stop - start)).find? fun k =>
        p (xs.getD (visited fromEnd start stop k) nil)).map (visited fromEnd start stop)) := by
  -- the round in which an index is visited
  have hround : ∀ i x, start ≤ i → i < stop → xs[i]? = some x → ∃ k < stop - start,
      visited fromEnd start stop k = i ∧ xs.getD i nil = x := by
    intro i x hi hi' hx
    refine ⟨if fromEnd then stop - 1 - i else i - start, ?_, ?_, ?_⟩
    · split <;> omega
    · cases fromEnd <;> simp only [visited, if_true, Bool.false_eq_true, if_false] <;> omega
    · rw [List.getD_eq_getElem?_getD, hx]
      rfl
  cases hfind : (List.range (stop - start)).find? fun k =>
      p (xs.getD (visited fromEnd start stop k) nil) with
  | none =>
    rw [List.find?_range_eq_none] at hfind
    intro i x hi hi' hx
    obtain ⟨k, hk, rfl, rfl⟩ := hround i x hi hi' hx
    simpa using hfind k hk
  | some k =>
    obtain ⟨hp, hk, hbefore⟩ := List.find?_range_eq_some.1 hfind
    rw [List.mem_range] at hk
    have hlt : start ≤ visited fromEnd start stop k ∧ visited fromEnd start stop k < stop := by
      cases fromEnd <;> simp only [visited, if_true, Bool.false_eq_true, if_false] <;> omega
    refine ⟨hlt.1, hlt.2, ⟨_, List.getElem?_eq_getElem (by omega), ?_⟩, ?_⟩
    · rwa [List.getD_eq_getElem?_getD, List.getElem?_eq_getElem (by omega)] at hp
    · intro j x hj hj' horder hx
      obtain ⟨k', hk', rfl, rfl⟩ := hround j x hj hj' hx
      have hk'' : k' < k := by
        cases fromEnd <;> simp only [visited, if_true, Bool.false_eq_true, if_false] at horder <;>
          omega
      simpa using hbefore k' hk''

theorem locate_spec (nil : α) (p : α → Bool) {k : Keys α} {s : Sequence α}
    (hstart : k.start ≤ k.stopOf s) (hstop : k.stopOf s ≤ s.length) :
    ∃ o, Located p s.elements k.fromEnd k.start (k.stopOf s) o ∧
      ∀ {γ : Type} (ret : ℤ → α → γ), ∀ fuel > k.stopOf s - k.start,
        locate p ret k fuel s = some (o.map fun i : ℕ => ret i (s.elements.getD i nil)) := by
  rw [← s.length_elements] at hstop
  refine ⟨_, located_find nil hstart hstop k.fromEnd, fun ret fuel hfuel => ?_⟩
  set n := k.stopOf s - k.start with hn
  set first : ℤ := if k.fromEnd then k.stopOf s - 1 else k.start with hfirst
  set inc : ℤ := if k.fromEnd then -1 else 1 with hinc
  have hvisited : ∀ i < n, first + i * inc = (visited k.fromEnd k.start (k.stopOf s) i : ℤ) ∧
      (first + i * inc).toNat = visited k.fromEnd k.start (k.stopOf s) i := by
    intro i hi
    cases hfromEnd : k.fromEnd <;> simp only [hfirst, hinc, hfromEnd, visited, if_true,
      Bool.false_eq_true, if_false] <;> omega
  let e : ℤ → α := fun index => s.elements.getD index.toNat nil
  have hinc_ne : inc ≠ 0 := by
    rw [hinc]
    split <;> decide
  have hterminus : (if k.fromEnd then (k.start : ℤ) - 1 else k.stopOf s) = first + n * inc := by
    cases hfromEnd : k.fromEnd <;> simp only [hfirst, hinc, hfromEnd, if_true, Bool.false_eq_true,
      if_false] <;> omega
  have hresult : ((List.range n).find? fun i : ℕ =>
      p (s.elements.getD (first + i * inc).toNat nil)).map (fun i : ℕ =>
        ret (first + i * inc) (s.elements.getD (first + i * inc).toNat nil)) =
      (((List.range n).find? fun i =>
        p (s.elements.getD (visited k.fromEnd k.start (k.stopOf s) i) nil)).map
          (visited k.fromEnd k.start (k.stopOf s))).map fun i : ℕ =>
            ret i (s.elements.getD i nil) := by
    rw [Option.map_map, List.find?_congr fun i hi => by rw [(hvisited i (List.mem_range.1 hi)).2]]
    refine Option.map_congr fun i hi => ?_
    have hi' := List.mem_range.1 (List.mem_of_find?_eq_some hi)
    rw [Function.comp, (hvisited i hi').2, (hvisited i hi').1]
  rw [← hresult]
  have hget : ∀ i < n, s.elements[(first + i * inc).toNat]? =
      some (s.elements.getD (first + i * inc).toNat nil) := by
    intro i hi
    rw [List.getD_eq_getElem?_getD, List.getElem?_eq_getElem]
    · rfl
    · rw [(hvisited i hi).2]
      cases k.fromEnd <;> simp only [visited, if_true, Bool.false_eq_true, if_false] <;> omega
  cases s with
  | list xs =>
    refine congrArg some ?_
    rw [listLocater]
    cases hfromEnd : k.fromEnd <;> simp only [hfirst, hinc, hfromEnd, if_true, Bool.false_eq_true,
      if_false] at hterminus hget hinc_ne ⊢
    · refine listLoop_eq e hinc_ne hterminus fun i hi => ?_
      rw [← hget i hi, List.getElem?_drop]
      congr 1
      omega
    · refine listLoop_eq e hinc_ne hterminus fun i hi => ?_
      have hlength : (Sequence.list xs).elements.length = xs.length := rfl
      rw [← hget i hi, List.getElem?_drop, List.getElem?_reverse (by omega)]
      congr 1
      omega
  | vector v =>
    refine vectorLoop_eq e hinc_ne hfuel hterminus fun i hi => ?_
    have hi' := hget i hi
    rw [Sequence.elements, List.getElem?_take] at hi'
    rw [FillVector.aref, if_pos (by rw [(hvisited i hi).1]; exact Int.natCast_nonneg _)]
    split at hi'
    · exact hi'
    · cases hi'

/-! ## The kernel does the same -/

variable {eql : α → α → Bool} {item nil : α}

theorem before_end (x : α) (xs : List α) (pos : ℕ) : (pos : ℤ) ≠ pos + (x :: xs).length ∧
    ((pos + 1 : ℕ) : ℤ) + xs.length = pos + (x :: xs).length := by
  rw [List.length_cons]
  omega

theorem listPositionEql_eq : ∀ (xs : List α) (pos : ℕ),
    (listPositionEql eql item pos xs).map (↑) =
      listLoop (eql item) (fun index _ => index) 1 (pos + xs.length) pos xs
  | [], _ => rfl
  | x :: xs, pos => by
    have hrec := listPositionEql_eq xs (pos + 1)
    obtain ⟨hne, hlength⟩ := before_end x xs pos
    rw [hlength, Nat.cast_succ] at hrec
    rw [listPositionEql, listLoop, if_neg hne, ← hrec]
    split <;> rfl

theorem listFindEql_eq : ∀ (xs : List α) (pos : ℕ),
    listFindEql eql item nil xs =
      (listLoop (eql item) (fun _ current => current) 1 (pos + xs.length) pos xs).getD nil
  | [], _ => rfl
  | x :: xs, pos => by
    have hrec := listFindEql_eq xs (pos + 1)
    obtain ⟨hne, hlength⟩ := before_end x xs pos
    rw [hlength, Nat.cast_succ] at hrec
    rw [listFindEql, listLoop, if_neg hne, hrec]
    split <;> rfl

theorem vectorPositionEql_eq (v : FillVector α) : ∀ {fuel pos : ℕ}, pos ≤ v.fillPointer →
    (vectorPositionEql eql item v fuel pos).map (Option.map (↑)) =
      vectorLoop (eql item) (fun index _ => index) 1 v.fillPointer v fuel pos
  | 0, _, _ => rfl
  | fuel + 1, pos, hpos => by
    rw [vectorPositionEql, vectorLoop]
    by_cases hlt : pos < v.fillPointer
    · rw [if_pos hlt, if_neg (by omega)]
      cases v.aref pos with
      | none => rfl
      | some x =>
        rw [Option.bind_some, Option.bind_some, ← Nat.cast_succ, ← vectorPositionEql_eq v hlt]
        split <;> rfl
    · rw [if_neg hlt, if_pos (by omega)]
      rfl

theorem vectorFindEql_eq (v : FillVector α) : ∀ {fuel pos : ℕ}, pos ≤ v.fillPointer →
    vectorFindEql eql item nil v fuel pos =
      (vectorLoop (eql item) (fun _ current => current) 1 v.fillPointer v fuel pos).map (·.getD nil)
  | 0, _, _ => rfl
  | fuel + 1, pos, hpos => by
    rw [vectorFindEql, vectorLoop]
    by_cases hlt : pos < v.fillPointer
    · have helt : v.elt pos = v.aref pos := by
        rw [FillVector.elt, FillVector.aref, if_pos hlt, if_pos (Int.natCast_nonneg _)]
        rfl
      rw [if_pos hlt, if_neg (by omega), helt]
      cases v.aref pos with
      | none => rfl
      | some x =>
        rw [Option.bind_some, Option.bind_some, ← Nat.cast_succ, vectorFindEql_eq v hlt]
        split <;> rfl
    · rw [if_neg hlt, if_pos (by omega)]
      rfl

end Proofs

/-! ## All functions -/

/-- Both functions find the same index. -/
def Finds (nil : α) (k : Keys α) (s : Sequence α) (p : α → Bool)
    (position : ℕ → Option (Option ℤ)) (find : ℕ → Option α) : Prop :=
  ∃ o, Located p s.elements k.fromEnd k.start (k.stopOf s) o ∧ ∃ n, ∀ fuel ≥ n,
    position fuel = some (o.map fun i : ℕ => (i : ℤ)) ∧
      find fuel = some (o.elim nil (s.elements.getD · nil))

theorem finds_locate (nil : α) {k : Keys α} {s : Sequence α} (hstart : k.start ≤ k.stopOf s)
    (hstop : k.stopOf s ≤ s.length) (p : α → Bool) :
    Finds nil k s p (fun fuel => locate p (fun index _ => index) k fuel s)
      fun fuel => (locate p (fun _ current => current) k fuel s).map (·.getD nil) := by
  obtain ⟨o, hlocated, hlocate⟩ := locate_spec nil p hstart hstop
  refine ⟨o, hlocated, k.stopOf s - k.start + 1, fun fuel hfuel => ⟨hlocate _ fuel hfuel, ?_⟩⟩
  dsimp only
  rw [hlocate _ fuel hfuel]
  cases o <;> rfl

/-- **All locaters agree**, on lists and vectors, and with the kernel. -/
theorem locaters_agree (eql : α → α → Bool) (nil : α) {k : Keys α} {s : Sequence α}
    (hstart : k.start ≤ k.stopOf s) (hstop : k.stopOf s ≤ s.length) :
    (∀ item test testNot, Finds nil k s (locaterTestNot item test testNot k.key)
      (fun fuel => position k fuel s item test testNot)
      fun fuel => find k fuel s nil item test testNot) ∧
    (∀ predicate, Finds nil k s (fun x => predicate (applyKey k.key x))
      (fun fuel => positionIf k fuel s predicate) fun fuel => findIf k fuel s nil predicate) ∧
    (∀ predicate, Finds nil k s (fun x => !predicate (applyKey k.key x))
      (fun fuel => positionIfNot k fuel s predicate) fun fuel => findIfNot k fuel s nil predicate) ∧
    ∀ item fuel,
      (positionEql eql item fuel s).map (Option.map fun i : ℕ => (i : ℤ)) =
        position ⟨false, 0, none, none⟩ fuel s item eql none ∧
      findEql eql item nil fuel s = find ⟨false, 0, none, none⟩ fuel s nil item eql none := by
  refine ⟨fun item test testNot => finds_locate nil hstart hstop _,
    fun predicate => finds_locate nil hstart hstop _,
    fun predicate => finds_locate nil hstart hstop _, fun item fuel => ?_⟩
  cases s with
  | list xs =>
    constructor
    · have hkernel := @listPositionEql_eq _ eql item xs 0
      rw [Nat.cast_zero, zero_add] at hkernel
      exact congrArg some hkernel
    · have hkernel := @listFindEql_eq _ eql item nil xs 0
      rw [Nat.cast_zero, zero_add] at hkernel
      exact congrArg some hkernel
  | vector v =>
    exact ⟨vectorPositionEql_eq v (Nat.zero_le _), vectorFindEql_eq v (Nat.zero_le _)⟩

/-- From the end of a part of a list. -/
theorem locaters_agree_pair :
    Finds 0 ⟨true, 0, some 2, none⟩ (.list [7, 7, 7]) (locaterTestNot 7 (· == ·) none none)
      (fun fuel => position ⟨true, 0, some 2, none⟩ fuel (.list [7, 7, 7]) 7 (· == ·) none)
      fun fuel => find ⟨true, 0, some 2, none⟩ fuel (.list [7, 7, 7]) 0 7 (· == ·) none :=
  (locaters_agree (· == ·) 0 (by decide) (by decide)).1 7 (· == ·) none

end Xcl.Sequences
