import Xcl.BitVectors.Equal

/-!
# Bit vectors that grow

A `BitVector` that is not displaced and has no fill pointer. `ensure_capacity` copies its words to a
longer storage.
-/

namespace Xcl.BitVectors

open PackedBits

structure BitVector where
  capacity : ℕ
  data : List (BitVec 32)
  length_data : data.length = dataLength capacity
  deriving DecidableEq

theorem dataLength_mono {m n : ℕ} (h : m ≤ n) : dataLength m ≤ dataLength n := by
  simp only [dataLength, and_thirtyOne, shiftRight_five]
  split_ifs <;> omega

namespace BitVector

theorem length_zeros (capacity : ℕ) :
    (List.replicate (dataLength capacity) (0 : BitVec 32)).length = dataLength capacity :=
  List.length_replicate

/-- The constructor. -/
def new (capacity : ℕ) : BitVector where
  capacity := capacity
  data := List.replicate (dataLength capacity) 0
  length_data := length_zeros capacity

variable (v : BitVector)

def getBit (index : ℕ) : Bool := (v.data.getD (index >>> 5) 0 &&& 1#32 <<< (index &&& 31)) != 0

def setBit (index : ℕ) : BitVector where
  capacity := v.capacity
  data := v.data.modify (index >>> 5) fun word => word ||| 1#32 <<< (index &&& 31)
  length_data := by rw [List.length_modify, v.length_data]

def clearBit (index : ℕ) : BitVector where
  capacity := v.capacity
  data := v.data.modify (index >>> 5) fun word => word &&& ~~~(1#32 <<< (index &&& 31))
  length_data := by rw [List.length_modify, v.length_data]

/-- `for (INDEX i = _capacity; i-- > 0;) set_bit(i, bit);` -/
def fill (bit : Bool) : BitVector :=
  (List.range v.capacity).foldr (fun i v => if bit then v.setBit i else v.clearBit i) v

/-- The larger of twice the capacity and the one that is required. -/
def ensureCapacity (required : ℕ) : BitVector :=
  if h : v.capacity < required then
    let capacity := max (v.capacity * 2) required
    { capacity := capacity
      data := v.data ++ List.replicate (dataLength capacity - dataLength v.capacity) 0
      length_data := by
        have hle : dataLength v.capacity ≤ dataLength capacity :=
          dataLength_mono (h.le.trans (Nat.le_max_right _ _))
        rw [List.length_append, List.length_replicate, v.length_data]
        omega }
  else v

@[simp] theorem capacity_new (capacity : ℕ) : (new capacity).capacity = capacity := rfl

@[simp] theorem capacity_setBit (index : ℕ) : (v.setBit index).capacity = v.capacity := rfl

@[simp] theorem capacity_clearBit (index : ℕ) : (v.clearBit index).capacity = v.capacity := rfl

theorem le_capacity_ensureCapacity (required : ℕ) :
    required ≤ (v.ensureCapacity required).capacity := by
  unfold ensureCapacity
  split_ifs with h
  · exact Nat.le_max_right _ _
  · exact Nat.le_of_not_lt h

theorem getBit_eq (i : ℕ) : v.getBit i = get v.data i := by
  simp only [getBit, and_thirtyOne, shiftRight_five]
  exact and_one_shiftLeft_bne _ (Nat.mod_lt i (by decide))

theorem setBit_data (i : ℕ) : (v.setBit i).data = put v.data i true := by
  simp only [setBit, and_thirtyOne, shiftRight_five]
  rfl

theorem clearBit_data (i : ℕ) : (v.clearBit i).data = put v.data i false := by
  simp only [clearBit, and_thirtyOne, shiftRight_five]
  rfl

theorem getBit_new (capacity i : ℕ) : (new capacity).getBit i = false := by
  rw [getBit_eq]
  exact get_replicate_zero _ _

variable {v} {i : ℕ}

theorem lt_length_mul (h : i < v.capacity) : i < v.data.length * 32 := by
  rw [v.length_data]
  exact h.trans_le (le_dataLength v.capacity)

theorem getBit_setBit (h : i < v.capacity) (j : ℕ) :
    (v.setBit i).getBit j = if j = i then true else v.getBit j := by
  rw [getBit_eq, getBit_eq, setBit_data]
  exact get_put (lt_length_mul h)

theorem getBit_clearBit (h : i < v.capacity) (j : ℕ) :
    (v.clearBit i).getBit j = if j = i then false else v.getBit j := by
  rw [getBit_eq, getBit_eq, clearBit_data]
  exact get_put (lt_length_mul h)

theorem getBit_fill (v : BitVector) (bit : Bool) (j : ℕ) :
    (v.fill bit).getBit j = if j < v.capacity then bit else v.getBit j := by
  have hloop : ∀ n ≤ v.capacity, ∀ u : BitVector, u.capacity = v.capacity →
      ((List.range n).foldr (fun i v => if bit then v.setBit i else v.clearBit i) u).getBit j =
        if j < n then bit else u.getBit j := by
    intro n
    induction n with
    | zero => simp
    | succ n ih =>
      intro hn u hu
      rw [List.range_succ, List.foldr_append, List.foldr_cons, List.foldr_nil]
      cases bit with
      | true =>
        rw [ih (by omega) _ (by simpa using hu), if_pos rfl, getBit_setBit (by omega)]
        split_ifs <;> first | rfl | omega
      | false =>
        rw [ih (by omega) _ (by simpa using hu), if_neg Bool.false_ne_true,
          getBit_clearBit (by omega)]
        split_ifs <;> first | rfl | omega
  exact hloop v.capacity le_rfl v rfl

theorem getBit_ensureCapacity (v : BitVector) (required j : ℕ) :
    (v.ensureCapacity required).getBit j = v.getBit j := by
  unfold ensureCapacity
  split_ifs with h
  · simp only [getBit, List.getD_eq_getElem?_getD, List.getElem?_append]
    split_ifs with hj
    · rfl
    · rw [List.getElem?_eq_none (Nat.le_of_not_lt hj), List.getElem?_replicate]
      split_ifs <;> rfl
  · rfl

theorem getBit_setBits {l : List ℕ} {v : BitVector} (h : ∀ i ∈ l, i < v.capacity) (j : ℕ) :
    (l.foldl setBit v).getBit j = (decide (j ∈ l) || v.getBit j) ∧
      (l.foldl setBit v).capacity = v.capacity := by
  induction l generalizing v with
  | nil => exact ⟨by simp, rfl⟩
  | cons i l ih =>
    obtain ⟨hbit, hcapacity⟩ := ih (v := v.setBit i) fun i' hi' =>
      h i' (List.mem_cons_of_mem _ hi')
    rw [List.foldl_cons]
    refine ⟨?_, hcapacity⟩
    rw [hbit, getBit_setBit (h i List.mem_cons_self)]
    by_cases hji : j = i
    · simp [hji]
    · simp [hji]

end BitVector

end Xcl.BitVectors
