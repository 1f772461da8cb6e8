import Mathlib.Data.List.Basic
import Mathlib.Tactic.Common

/-!
# Bits packed into words

The bits of a list of words of `w` bits, word after word and from the lowest bit of a word up.

* **`ext_iff`**: words are equal when all their bits are.
-/

namespace PackedBits

variable {w : ℕ}

/-- Bit `i`; beyond the last word the bits are false. -/
def get (data : List (BitVec w)) (i : ℕ) : Bool := (data.getD (i / w) 0).getLsbD (i % w)

def putWord (word : BitVec w) (j : ℕ) (b : Bool) : BitVec w :=
  if b then word ||| 1#w <<< j else word &&& ~~~(1#w <<< j)

def put (data : List (BitVec w)) (i : ℕ) (b : Bool) : List (BitVec w) :=
  data.modify (i / w) fun word => putWord word (i % w) b

variable {data data' : List (BitVec w)} {i j : ℕ} {b : Bool}

theorem getLsbD_one_shiftLeft (hj : j < w) (i : ℕ) :
    (1#w <<< j).getLsbD i = decide (i = j) := by
  rw [BitVec.getLsbD_shiftLeft, BitVec.getLsbD_one]
  by_cases hij : i = j
  · simp [hij, hj, Nat.zero_lt_of_lt hj]
  · have hne : i < j ∨ i - j ≠ 0 := by omega
    rcases hne with h | h <;> simp [h, hij]

theorem getLsbD_putWord {word : BitVec w} (hj : j < w) (i : ℕ) :
    (putWord word j b).getLsbD i = if i = j then b else word.getLsbD i := by
  cases b with
  | true =>
    simp only [putWord, if_true, BitVec.getLsbD_or, getLsbD_one_shiftLeft hj]
    split_ifs with hij <;> simp [hij]
  | false =>
    simp only [putWord, Bool.false_eq_true, if_false, BitVec.getLsbD_and, BitVec.getLsbD_not,
      getLsbD_one_shiftLeft hj]
    split_ifs with hij
    · simp [hij]
    · by_cases hi : i < w
      · simp [hij, hi]
      · simp [BitVec.getLsbD_of_ge word i (Nat.le_of_not_lt hi)]

theorem and_one_shiftLeft_bne (word : BitVec w) (hj : j < w) :
    (word &&& 1#w <<< j != 0) = word.getLsbD j := by
  rw [Bool.eq_iff_iff, bne_iff_ne, ne_eq]
  constructor
  · intro hne
    by_contra hbit
    refine hne (BitVec.eq_of_getLsbD_eq fun i _ => ?_)
    rw [BitVec.getLsbD_and, getLsbD_one_shiftLeft hj]
    by_cases hij : i = j
    · simp [hij, Bool.eq_false_iff.mpr hbit]
    · simp [hij]
  · intro hbit heq
    have h := congrArg (·.getLsbD j) heq
    simp [BitVec.getLsbD_and, getLsbD_one_shiftLeft hj, hbit] at h

@[simp] theorem length_put : (put data i b).length = data.length := by simp [put]

theorem get_put_self (h : i < data.length * w) : get (put data i b) i = b := by
  have hw : 0 < w := Nat.pos_of_ne_zero fun h0 => by simp [h0] at h
  have hi : i / w < data.length := Nat.div_lt_of_lt_mul (by rwa [Nat.mul_comm])
  simp [get, put, hi, getLsbD_putWord (Nat.mod_lt i hw)]

theorem get_put_of_ne (h : j ≠ i) : get (put data i b) j = get data j := by
  rcases Nat.eq_zero_or_pos w with rfl | hw
  · simp [get]
  simp only [get, put, List.getD_eq_getElem?_getD, List.getElem?_modify]
  split_ifs with hij
  · have hmod : j % w ≠ i % w := fun hmod => h (by
      rw [← Nat.div_add_mod j w, ← Nat.div_add_mod i w, hmod, hij])
    cases data[j / w]? with
    | none => rfl
    | some word => simp [getLsbD_putWord (Nat.mod_lt i hw), hmod]
  · simp

/-- **A write changes one bit.** -/
theorem get_put (h : i < data.length * w) :
    get (put data i b) j = if j = i then b else get data j := by
  split_ifs with hij
  · rw [hij, get_put_self h]
  · exact get_put_of_ne hij

theorem get_of_le (h : data.length * w ≤ i) : get data i = false := by
  rcases Nat.eq_zero_or_pos w with rfl | hw
  · simp [get]
  · have hi : data.length ≤ i / w := (Nat.le_div_iff_mul_le hw).mpr h
    simp [get, hi]

theorem get_cons (word : BitVec w) (data : List (BitVec w)) (i : ℕ) :
    get (word :: data) i = if i < w then word.getLsbD i else get data (i - w) := by
  split_ifs with hi
  · simp [get, Nat.div_eq_of_lt hi, Nat.mod_eq_of_lt hi]
  · have hle : w ≤ i := Nat.le_of_not_lt hi
    rcases Nat.eq_zero_or_pos w with rfl | hw
    · simp [get]
    · rw [get, get, Nat.div_eq_sub_div hw hle, List.getD_cons_succ, Nat.mod_eq_sub_mod hle]

/-! ## Whole words -/

theorem getLsbD_getD_map {f : BitVec w → BitVec w} (h : i < data.length) :
    (data.map f).getD i 0 = f (data.getD i 0) := by
  simp [h]

theorem get_map {f : BitVec w → BitVec w} {g : Bool → Bool}
    (hf : ∀ word j, j < w → (f word).getLsbD j = g (word.getLsbD j)) (h : i < data.length * w) :
    get (data.map f) i = g (get data i) := by
  have hw : 0 < w := Nat.pos_of_ne_zero fun h0 => by simp [h0] at h
  have hi : i / w < data.length := Nat.div_lt_of_lt_mul (by rwa [Nat.mul_comm])
  rw [get, getLsbD_getD_map hi, hf _ _ (Nat.mod_lt i hw), get]

theorem get_zipWith {f : BitVec w → BitVec w → BitVec w} {g : Bool → Bool → Bool}
    (hf : ∀ x y j, j < w → (f x y).getLsbD j = g (x.getLsbD j) (y.getLsbD j))
    (h : i < data.length * w) (h' : i < data'.length * w) :
    get (List.zipWith f data data') i = g (get data i) (get data' i) := by
  have hw : 0 < w := Nat.pos_of_ne_zero fun h0 => by simp [h0] at h
  have hi : i / w < data.length := Nat.div_lt_of_lt_mul (by rwa [Nat.mul_comm])
  have hi' : i / w < data'.length := Nat.div_lt_of_lt_mul (by rwa [Nat.mul_comm])
  simp only [get]
  rw [← hf _ _ _ (Nat.mod_lt i hw)]
  simp [List.getD_eq_getElem?_getD, List.getElem?_zipWith, hi, hi']

@[simp] theorem get_replicate_zero (n i : ℕ) : get (List.replicate n (0 : BitVec w)) i = false := by
  simp only [get, List.getD_eq_getElem?_getD, List.getElem?_replicate]
  split_ifs <;> simp

/-- **Words are equal when all their bits are.** -/
theorem ext_iff (h : data.length = data'.length) :
    data = data' ↔ ∀ i, i < data.length * w → get data i = get data' i := by
  refine ⟨fun heq _ _ => by rw [heq], fun hget => List.ext_getElem h fun n hn hn' => ?_⟩
  apply BitVec.eq_of_getLsbD_eq
  intro j hj
  have hw : 0 < w := Nat.zero_lt_of_lt hj
  have hdiv : (n * w + j) / w = n := by
    rw [Nat.add_comm, Nat.add_mul_div_right _ _ hw, Nat.div_eq_of_lt hj, Nat.zero_add]
  have hmod : (n * w + j) % w = j := by
    rw [Nat.add_comm, Nat.add_mul_mod_self_right, Nat.mod_eq_of_lt hj]
  have hlt : n * w + j < data.length * w := by
    have := Nat.mul_le_mul_right w (Nat.succ_le_of_lt hn)
    rw [Nat.succ_mul] at this
    omega
  simpa [get, hdiv, hmod, hn, hn'] using hget _ hlt

end PackedBits
