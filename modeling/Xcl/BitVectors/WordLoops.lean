import Xcl.BitVectors.Equal

/-!
# The loops of the bit-wise operations

* `word`, `storeWord`: an access to one word of a vector, which has to lie inside its data;
* **`bitwise_exact`**: they compute the boolean functions, bit by bit.
-/

namespace Xcl.BitVectors

open PackedBits

/-! ## The functions -/

def word (h : Heap) (v : Reference) (i : ℕ) : Option (BitVec 32) := do (← h[v]?).data[i]?

/-- `_data[i] = w`; outside of the data this is undefined. -/
def SimpleBitVector.storeWord (x : SimpleBitVector) (i : ℕ) (w : BitVec 32) :
    SimpleBitVector where
  capacity := x.capacity
  data := x.data.set i w
  length_data := by rw [List.length_set, x.length_data]

def storeWord (h : Heap) (v : Reference) (i : ℕ) (w : BitVec 32) : Option Heap := do
  let x ← h[v]?
  if i < x.data.length then return h.set v (x.storeWord i w) else none

def rounds (compute : Heap → ℕ → Option (BitVec 32)) (v : Reference) (h : Heap) (size : ℕ) :
    Option Heap :=
  (List.range size).foldlM (fun h i => do storeWord h v i (← compute h i)) h

/-- `simple-bit-vector-bit-and` and the other operations of two arguments: the error, if any, and
the heap. -/
def bitOpLoop (op : BitOp) (h : Heap) (v1 v2 v3 : Reference) : Option (Option Failure × Heap) :=
  match h[v1]?, h[v2]?, h[v3]? with
  | some x1, some x2, some x3 =>
    if x1.capacity ≠ x3.capacity ∨ x2.capacity ≠ x3.capacity then some (some .lengthMismatch, h)
    else do
      let h ← rounds (fun h i => do return op.word (← word h v1 i) (← word h v2 i)) v3 h
        (dataLength x3.capacity)
      return (none, h)
  | _, _, _ => some (some .notSimpleBitVector, h)

/-- `simple-bit-vector-bit-not` -/
def bitNotLoop (h : Heap) (v1 v2 : Reference) : Option (Option Failure × Heap) :=
  match h[v1]?, h[v2]? with
  | some x1, some x2 =>
    if x1.capacity ≠ x2.capacity then some (some .lengthMismatch, h)
    else do
      let h ← rounds (fun h i => do return ~~~(← word h v1 i)) v2 h (dataLength x2.capacity)
      return (none, h)
  | _, _ => some (some .notSimpleBitVector, h)

def withHeap (h : Heap) : Except Failure Heap → Option Failure × Heap
  | .ok h' => (none, h')
  | .error failure => (some failure, h)

/-! ## The loop -/

section Rounds

variable {h : Heap} {v : Reference} {x : SimpleBitVector} {words : List (BitVec 32)}

/-- The vector after `n` rounds. -/
def SimpleBitVector.written (x : SimpleBitVector) (words : List (BitVec 32))
    (hlength : words.length = x.data.length) (n : ℕ) : SimpleBitVector where
  capacity := x.capacity
  data := words.take n ++ x.data.drop n
  length_data := by
    rw [← x.length_data, List.length_append, List.length_take, List.length_drop, hlength]
    omega

theorem written_zero (hlength : words.length = x.data.length) : x.written words hlength 0 = x := rfl

theorem storeWord_written (hlength : words.length = x.data.length) {n : ℕ}
    (hn : n < words.length) :
    (x.written words hlength n).storeWord n words[n] = x.written words hlength (n + 1) := by
  unfold SimpleBitVector.storeWord SimpleBitVector.written
  congr 1
  have htake : (words.take n).length = n := by
    rw [List.length_take]
    omega
  rw [List.set_append_right _ _ htake.le, htake, Nat.sub_self, List.take_add_one,
    List.getElem?_eq_getElem hn, List.drop_eq_getElem_cons (hlength ▸ hn), List.set_cons_zero,
    List.append_assoc]
  rfl

theorem word_written (hx : h[v]? = some x) (hlength : words.length = x.data.length) {u : Reference}
    {y : SimpleBitVector} (hy : h[u]? = some y) (n : ℕ) :
    word (h.set v (x.written words hlength n)) u n = y.data[n]? := by
  have hv : v < h.length := (List.getElem?_eq_some_iff.mp hx).1
  unfold word
  by_cases huv : u = v
  · subst huv
    obtain rfl : x = y := Option.some.inj (hx.symm.trans hy)
    rw [List.getElem?_set_self hv]
    have hdata : (x.written words hlength n).data = words.take n ++ x.data.drop n := rfl
    simp only [Option.bind_eq_bind, Option.bind_some, hdata]
    rcases Nat.lt_or_ge n x.data.length with hn | hn
    · have htake : (words.take n).length = n := by
        rw [List.length_take]
        omega
      rw [List.getElem?_append_right (by omega), htake, Nat.sub_self, List.getElem?_drop,
        Nat.add_zero]
    · rw [List.getElem?_eq_none hn, List.getElem?_eq_none]
      rw [List.length_append, List.length_take, List.length_drop]
      omega
  · rw [List.getElem?_set_ne (Ne.symm huv), hy]
    rfl

/-- **The rounds write the words one after the other**, if each of them computes its word from a
heap where the words before have been written. -/
theorem rounds_eq {compute : Heap → ℕ → Option (BitVec 32)} (hx : h[v]? = some x)
    (hlength : words.length = x.data.length)
    (hcompute : ∀ n, (hn : n < words.length) →
      compute (h.set v (x.written words hlength n)) n = some words[n]) {n : ℕ}
    (hn : n ≤ words.length) :
    rounds compute v h n = some (h.set v (x.written words hlength n)) := by
  have hv : v < h.length := (List.getElem?_eq_some_iff.mp hx).1
  unfold rounds
  induction n with
  | zero =>
    rw [written_zero]
    have hset : h.set v x = h := by
      rw [← (List.getElem?_eq_some_iff.mp hx).2]
      exact List.set_getElem_self hv
    rw [hset]
    rfl
  | succ n ih =>
    have hword : n < (x.written words hlength n).data.length := by
      rw [(x.written words hlength n).length_data]
      have hcapacity : (x.written words hlength n).capacity = x.capacity := rfl
      rw [hcapacity, ← x.length_data]
      omega
    rw [List.range_succ, List.foldlM_append, ih (by omega)]
    simp only [Option.bind_eq_bind, Option.bind_some, List.foldlM_cons, List.foldlM_nil,
      hcompute n hn, storeWord, List.getElem?_set_self hv, if_pos hword,
      storeWord_written hlength hn, List.set_set]
    rfl

theorem written_length (hlength : words.length = x.data.length) :
    x.written words hlength (dataLength x.capacity) = ⟨x.capacity, words, by
      rw [hlength, x.length_data]⟩ := by
  unfold SimpleBitVector.written
  congr 1
  rw [← x.length_data, List.drop_length, List.append_nil, ← hlength, List.take_length]

end Rounds

/-! ## What the loops do -/

section

variable {h : Heap} {v1 v2 v3 : Reference} {x1 x2 x3 : SimpleBitVector}

theorem bitOpLoop_eq (op : BitOp) (h : Heap) (v1 v2 v3 : Reference) :
    bitOpLoop op h v1 v2 v3 = some (withHeap h (combine h op v1 v2 v3)) := by
  unfold bitOpLoop combine checkSimpleBitVector
  cases h1 : h[v1]? with
  | none => rfl
  | some x1 =>
    cases h2 : h[v2]? with
    | none => rfl
    | some x2 =>
      cases h3 : h[v3]? with
      | none => rfl
      | some x3 =>
        simp only [Option.elim_some, pure_bind]
        by_cases hcapacity : x1.capacity = x3.capacity ∧ x2.capacity = x3.capacity
        · have hl1 : x1.data.length = x3.data.length := by
            rw [x1.length_data, x3.length_data, hcapacity.1]
          have hl2 : x2.data.length = x3.data.length := by
            rw [x2.length_data, x3.length_data, hcapacity.2]
          have hlength : (List.zipWith op.word x1.data x2.data).length = x3.data.length := by
            rw [List.length_zipWith, hl1, hl2, Nat.min_self]
          have hn : dataLength x3.capacity ≤ (List.zipWith op.word x1.data x2.data).length := by
            rw [hlength, x3.length_data]
          rw [if_neg (by simp [hcapacity]), dif_pos hcapacity,
            rounds_eq h3 hlength (fun n hn => ?_) hn, written_length hlength]
          · rfl
          · have hn1 : n < x1.data.length := by omega
            have hn2 : n < x2.data.length := by omega
            simp only [word_written h3 hlength h1, word_written h3 hlength h2,
              List.getElem?_eq_getElem hn1, List.getElem?_eq_getElem hn2, List.getElem_zipWith]
            rfl
        · rw [if_pos (by rwa [← not_and_or]), dif_neg hcapacity]
          rfl

theorem bitNotLoop_eq (h : Heap) (v1 v2 : Reference) :
    bitNotLoop h v1 v2 = some (withHeap h (complement h v1 v2)) := by
  unfold bitNotLoop complement checkSimpleBitVector
  cases h1 : h[v1]? with
  | none => rfl
  | some x1 =>
    cases h2 : h[v2]? with
    | none => rfl
    | some x2 =>
      simp only [Option.elim_some, pure_bind]
      by_cases hcapacity : x1.capacity = x2.capacity
      · have hl1 : x1.data.length = x2.data.length := by
          rw [x1.length_data, x2.length_data, hcapacity]
        have hlength : (x1.data.map (~~~·)).length = x2.data.length := by
          rw [List.length_map, hl1]
        have hn : dataLength x2.capacity ≤ (x1.data.map (~~~·)).length := by
          rw [hlength, x2.length_data]
        rw [if_neg (by simp [hcapacity]), dif_pos hcapacity,
          rounds_eq h2 hlength (fun n hn => ?_) hn, written_length hlength]
        · rfl
        · have hn1 : n < x1.data.length := by omega
          simp only [word_written h2 hlength h1, List.getElem?_eq_getElem hn1, List.getElem_map]
          rfl
      · rw [if_pos hcapacity, dif_neg hcapacity]
        rfl

theorem combine_exact (op : BitOp) (h1 : h[v1]? = some x1) (h2 : h[v2]? = some x2)
    (h3 : h[v3]? = some x3) (hcapacity : x1.capacity = x3.capacity ∧ x2.capacity = x3.capacity) :
    ∃ x, combine h op v1 v2 v3 = .ok (h.set v3 x) ∧ x.capacity = x3.capacity ∧
      ∀ i < x3.capacity, x.inlineGetbit i = op.bit (x1.inlineGetbit i) (x2.inlineGetbit i) := by
  simp only [combine, checkSimpleBitVector, h1, h2, h3, Option.elim_some, pure_bind,
    dif_pos hcapacity]
  refine ⟨_, rfl, rfl, fun i hi => ?_⟩
  simp only [SimpleBitVector.inlineGetbit_eq]
  refine get_zipWith op.getLsbD_word ?_ ?_
  · exact SimpleBitVector.lt_length_mul (hcapacity.1 ▸ hi)
  · exact SimpleBitVector.lt_length_mul (hcapacity.2 ▸ hi)

theorem complement_exact (h1 : h[v1]? = some x1) (h2 : h[v2]? = some x2)
    (hcapacity : x1.capacity = x2.capacity) :
    ∃ x, complement h v1 v2 = .ok (h.set v2 x) ∧ x.capacity = x2.capacity ∧
      ∀ i < x2.capacity, x.inlineGetbit i = !x1.inlineGetbit i := by
  simp only [complement, checkSimpleBitVector, h1, h2, Option.elim_some, pure_bind,
    dif_pos hcapacity]
  refine ⟨_, rfl, rfl, fun i hi => ?_⟩
  simp only [SimpleBitVector.inlineGetbit_eq]
  refine get_map (g := (!·)) (fun w j hj => ?_) ?_
  · rw [BitVec.getLsbD_not, decide_eq_true hj, Bool.true_and]
  · exact SimpleBitVector.lt_length_mul (hcapacity ▸ hi)

end

/-- **The bit-wise operations are exact**: for vectors of one length the result is the only vector
that changes, and it has the bits of the boolean function; for others there is an error. The
references may be the same. -/
theorem bitwise_exact (h : Heap) (v1 v2 v3 : Reference) :
    (∀ op x1 x2 x3, h[v1]? = some x1 → h[v2]? = some x2 → h[v3]? = some x3 →
      if x1.capacity = x3.capacity ∧ x2.capacity = x3.capacity then
        ∃ x, bitOpLoop op h v1 v2 v3 = some (none, h.set v3 x) ∧ x.capacity = x3.capacity ∧
          ∀ i < x3.capacity, x.inlineGetbit i = op.bit (x1.inlineGetbit i) (x2.inlineGetbit i)
      else bitOpLoop op h v1 v2 v3 = some (some .lengthMismatch, h)) ∧
    ∀ x1 x2, h[v1]? = some x1 → h[v2]? = some x2 →
      if x1.capacity = x2.capacity then
        ∃ x, bitNotLoop h v1 v2 = some (none, h.set v2 x) ∧ x.capacity = x2.capacity ∧
          ∀ i < x2.capacity, x.inlineGetbit i = !x1.inlineGetbit i
      else bitNotLoop h v1 v2 = some (some .lengthMismatch, h) := by
  constructor
  · intro op x1 x2 x3 h1 h2 h3
    split_ifs with hcapacity
    · obtain ⟨x, hcombine, hx⟩ := combine_exact op h1 h2 h3 hcapacity
      exact ⟨x, by rw [bitOpLoop_eq, hcombine]; rfl, hx⟩
    · simp only [bitOpLoop, h1, h2, h3]
      exact if_pos (not_and_or.mp hcapacity)
  · intro x1 x2 h1 h2
    split_ifs with hcapacity
    · obtain ⟨x, hcomplement, hx⟩ := complement_exact h1 h2 hcapacity
      exact ⟨x, by rw [bitNotLoop_eq, hcomplement]; rfl, hx⟩
    · simp only [bitNotLoop, h1, h2]
      exact if_pos hcapacity

/-- The complement of a bit and of the 31 unused bits above it, in place. -/
theorem bitwise_exact_nand :
    ∃ x, bitOpLoop .nand [.new 1] 0 0 0 = some (none, [x]) ∧ x.capacity = 1 ∧
      ∀ i < 1, x.inlineGetbit i = BitOp.nand.bit false false := by
  obtain ⟨x, hx, hcapacity, hbits⟩ := (bitwise_exact [.new 1] 0 0 0).1 .nand _ _ _ rfl rfl rfl
  refine ⟨x, hx, hcapacity, fun i hi => ?_⟩
  rw [hbits i hi, Nat.lt_one_iff.mp hi]
  rfl

end Xcl.BitVectors
