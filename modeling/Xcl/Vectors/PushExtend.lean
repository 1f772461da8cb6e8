import Xcl.Value
import Xcl.Vectors.Bits

/-!
# `vector-push-extend`

* `vectorT`, `vectorUB8`, `string`: the three classes;
* **`pushExtend_appends_iff`**: when `push_extend` appends, for each class.
-/

namespace Xcl.Vectors

open BitVectors (dataLength)

/-- A slot that has been written holds a word. -/
abbrev Slot := Option (BitVec 64)

/-- `Vector_T`. The number of bytes to allocate is computed in 64 bits. -/
def vectorT : Kind Slot Slot where
  store x := x
  load x := x
  copied x := x
  initial x := x
  cleared := some nullValue
  allocated n := n * 8 % 18446744073709551616 / 8
  spare := 0

/-- `Vector_UB8`. Where the array is copied the value that its `aref` returns becomes a byte, and so
does the value of an initial element. -/
def vectorUB8 : Kind (BitVec 8) (BitVec 8) where
  store x := x
  load x := x
  copied x := (makeFixnum (x.setWidth 64)).setWidth 8
  initial x := (makeFixnum (x.setWidth 64)).setWidth 8
  cleared := 0
  allocated n := n
  spare := 0

/-- `String`. The storage ends in a null character. -/
def string : Kind (BitVec 8) (BitVec 8) where
  store c := c
  load c := c
  copied c := charValue (makeCharacter c)
  initial c := c
  cleared := 0
  allocated n := n + 1
  spare := 1

/-! ## The conversions -/

theorem setWidth_makeFixnum (b : BitVec 8) :
    (makeFixnum (b.setWidth 64)).setWidth 8 = b ↔ b = 0 := by
  revert b
  decide

theorem charValue_makeCharacter (c : BitVec 8) : charValue (makeCharacter c) = c := by
  revert c
  decide

/-! ## The conditions -/

variable {δ ε : Type}

/-- The vector is full. -/
def Grows (s : State δ ε) : Prop := s.vector.capacity ≤ s.vector.fillPointer

/-- The array covers the active elements of a vector that is displaced to it, and the next one
where it is stored there. -/
def Covers (s : State δ ε) : Prop :=
  ∀ offset, s.vector.storage = .displaced offset →
    if s.vector.fillPointer < s.vector.capacity then
      s.vector.fillPointer + offset < s.array.length
    else s.vector.fillPointer = 0 ∨ s.vector.fillPointer + offset ≤ s.array.length

/-- The elements below the fill pointer are zero. -/
def Zeros (s : State (BitVec 8) (BitVec 8)) : Prop :=
  ∀ offset, s.vector.storage = .displaced offset →
    ∀ i < s.vector.fillPointer, ∀ a, s.array[i + offset]? = some a → a = 0

variable {K : Kind δ ε} {s : State δ ε} {extension : ℕ}

theorem room_iff (h : s.WellFormed id)
    (hcopied : Grows s → ∀ offset, s.vector.storage = .displaced offset →
      ∀ i < s.vector.fillPointer, ∀ a, s.array[i + offset]? = some a → K.load (K.copied a) = a)
    (hallocated : Grows s →
      newCapacity s.vector.capacity (s.vector.fillPointer + extension) + K.spare ≤
        K.allocated (newCapacity s.vector.capacity (s.vector.fillPointer + extension)))
    (hextension : 0 < extension) : Room K s extension ↔ Covers s := by
  have hfill := h.fillPointer
  unfold Room Covers
  cases hstorage : s.vector.storage with
  | owned data =>
    refine iff_of_true ?_ fun offset hoffset => by cases hoffset
    by_cases hlt : s.vector.fillPointer < s.vector.capacity
    · exact Or.inl hlt
    · exact Or.inr (hallocated (not_lt.mp hlt))
  | displaced offset =>
    simp only [Storage.displaced.injEq, forall_eq']
    split_ifs with hlt
    · rfl
    · have hcapacity : s.vector.capacity < newCapacity s.vector.capacity
          (s.vector.fillPointer + extension) := lt_newCapacity (by omega)
      have hroom := hallocated (not_lt.mp hlt)
      exact and_iff_left ⟨hcopied (not_lt.mp hlt) offset hstorage, by omega⟩

/-- A size of `2 ^ 64` bytes or more is not what is allocated. -/
theorem le_allocated_vectorT {n : ℕ} (h : n < 4611686018427387904) :
    n ≤ vectorT.allocated n ↔ n < 2305843009213693952 := by
  simp only [vectorT]
  omega

theorem room_vectorT {s : State Slot Slot} (h : s.WellFormed id) (hextension : 0 < extension)
    (hfixnum : extension ≤ 2305843009213693951) :
    Room vectorT s extension ↔ Covers s ∧ (Grows s →
      newCapacity s.vector.capacity (s.vector.fillPointer + extension) < 2305843009213693952) := by
  have hfill := h.fillPointer
  have hcapacity := h.capacity
  have hbound : newCapacity s.vector.capacity (s.vector.fillPointer + extension) <
      4611686018427387904 := by
    unfold newCapacity
    split_ifs <;> omega
  by_cases hsize : Grows s →
      newCapacity s.vector.capacity (s.vector.fillPointer + extension) < 2305843009213693952
  · have hroom : Room vectorT s extension ↔ Covers s := room_iff h (fun _ _ _ _ _ _ _ => rfl)
      (fun hgrows => (le_allocated_vectorT hbound).mpr (hsize hgrows)) hextension
    rw [hroom]
    exact (and_iff_left hsize).symm
  · refine iff_of_false (fun hroom => ?_) fun hroom => hsize hroom.2
    rw [Classical.not_imp] at hsize
    obtain ⟨hgrows, hsize⟩ := hsize
    have hnlt : ¬ s.vector.fillPointer < s.vector.capacity := not_lt.mpr hgrows
    unfold Room at hroom
    cases hstorage : s.vector.storage with
    | owned data =>
      simp only [hstorage, or_iff_right hnlt] at hroom
      exact hsize ((le_allocated_vectorT hbound).mp hroom)
    | displaced offset =>
      simp only [hstorage, if_neg hnlt] at hroom
      have hallocated := hroom.2.2
      revert hallocated hsize hbound
      simp only [vectorT, newCapacity]
      split_ifs <;> omega

theorem room_vectorUB8 {s : State (BitVec 8) (BitVec 8)} (h : s.WellFormed id)
    (hextension : 0 < extension) :
    Room vectorUB8 s extension ↔ Covers s ∧ (Grows s → Zeros s) := by
  have hcopied : ∀ a : BitVec 8, vectorUB8.load (vectorUB8.copied a) = a ↔ a = 0 :=
    setWidth_makeFixnum
  by_cases hzeros : Grows s → Zeros s
  · rw [room_iff h (fun hgrows offset hoffset i hi a ha =>
      (hcopied a).mpr (hzeros hgrows offset hoffset i hi a ha)) (fun _ => Nat.le_refl _) hextension]
    exact (and_iff_left hzeros).symm
  · refine iff_of_false (fun hroom => hzeros fun hgrows offset hoffset i hi a ha => ?_)
      fun hroom => hzeros hroom.2
    simp only [Room, hoffset, if_neg (not_lt.mpr hgrows)] at hroom
    exact (hcopied a).mp (hroom.2.1 i hi a ha)

theorem room_string {s : State (BitVec 8) (BitVec 8)} (h : s.WellFormed id)
    (hextension : 0 < extension) : Room string s extension ↔ Covers s :=
  room_iff h (fun _ _ _ _ _ a _ => charValue_makeCharacter a) (fun _ => Nat.le_refl _) hextension

theorem bitRoom_iff {s : BitState} : BitRoom s extension ↔ Covers s ∧
    (Grows s → (∃ offset, s.vector.storage = .displaced offset) →
      s.vector.fillPointer < displacedSize (s.vector.fillPointer + extension) * 32) := by
  unfold BitRoom Covers Grows
  cases hstorage : s.vector.storage with
  | owned data =>
    refine iff_of_true trivial ⟨fun offset hoffset => (by cases hoffset), fun _ hoffset => ?_⟩
    obtain ⟨offset, hoffset⟩ := hoffset
    cases hoffset
  | displaced offset =>
    simp only [Storage.displaced.injEq, forall_eq', exists_eq', forall_const]
    split_ifs with hlt
    · rw [imp_iff_not_or, not_le]
      exact (and_iff_left (Or.inl hlt)).symm
    · exact and_congr_right fun _ => (imp_iff_right (not_lt.mp hlt)).symm

/-- **`vector-push-extend` appends**, for each class exactly under its condition: the other array
covers the vector; and where a full vector grows, the size of a `Vector_T` is below `2 ^ 61`, the
elements of a displaced `Vector_UB8` are zero, and the words for a displaced `BitVector` reach to
its fill pointer. -/
theorem pushExtend_appends_iff (extension : ℕ) :
    (∀ (s : State Slot Slot) fresh x, s.WellFormed id → 0 < extension →
      extension ≤ 2305843009213693951 →
      (Appends (aref vectorT) s x (pushExtend vectorT fresh s x extension) ↔ Covers s ∧
        (Grows s → newCapacity s.vector.capacity (s.vector.fillPointer + extension) <
          2305843009213693952))) ∧
    (∀ (s : State (BitVec 8) (BitVec 8)) fresh x, s.WellFormed id → 0 < extension →
      (Appends (aref vectorUB8) s x (pushExtend vectorUB8 fresh s x extension) ↔
        Covers s ∧ (Grows s → Zeros s))) ∧
    (∀ (s : BitState) fresh x, s.WellFormed dataLength → 0 < extension →
      (Appends bitAref s x (bitPushExtend fresh s x extension) ↔ Covers s ∧
        (Grows s → (∃ offset, s.vector.storage = .displaced offset) →
          s.vector.fillPointer < displacedSize (s.vector.fillPointer + extension) * 32))) ∧
    (∀ (s : State (BitVec 8) (BitVec 8)) x, s.WellFormed id → 0 < extension →
      (Appends (aref string) s x (pushExtend string (fun _ => 0) s x extension) ↔ Covers s)) := by
  refine ⟨fun s fresh x h hpos hfixnum => ?_, fun s fresh x h hpos => ?_,
    fun s fresh x h hpos => ?_, fun s x h hpos => ?_⟩
  · exact (appends_iff (fun _ => rfl) h hpos).trans (room_vectorT h hpos hfixnum)
  · exact (appends_iff (fun _ => rfl) h hpos).trans (room_vectorUB8 h hpos)
  · exact (bitAppends_iff h hpos).trans bitRoom_iff
  · exact (appends_iff (fun _ => rfl) h hpos).trans (room_string h hpos)

/-- A full `Vector_UB8` that is displaced to an array of one byte. -/
def displacedByte : State (BitVec 8) (BitVec 8) := ⟨⟨1, true, 1, .displaced 0⟩, [1]⟩

theorem wellFormed_displacedByte : displacedByte.WellFormed id where
  hasFillPointer := rfl
  fillPointer := Nat.le_refl 1
  owned := fun data hdata => by cases hdata
  capacity := by decide
  array := by decide
  offset := fun offset hoffset => by cases hoffset; decide

/-- The byte has become the low byte of the fixnum. -/
theorem not_appends_displacedByte :
    ¬ ∀ (s : State (BitVec 8) (BitVec 8)) fresh x extension, s.WellFormed id → 0 < extension →
      Appends (aref vectorUB8) s x (pushExtend vectorUB8 fresh s x extension) := by
  intro h
  obtain ⟨s', hok, -, hbelow, -⟩ :=
    h displacedByte (fun _ => 0) 2 1 wellFormed_displacedByte Nat.one_pos
  have hrun : pushExtend vectorUB8 (fun _ => 0) displacedByte 2 1 =
      .ok (⟨⟨2, true, 2, .owned [4, 2]⟩, [1]⟩, 1) := rfl
  rw [hrun] at hok
  cases hok
  exact absurd (hbelow 0 Nat.one_pos) (by decide)

end Xcl.Vectors
