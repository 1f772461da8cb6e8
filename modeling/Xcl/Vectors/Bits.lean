import Xcl.BitVectors.Equal
import Xcl.Vectors.Append

/-!
# Bit vectors that can grow (`BitVector`)

The bits of a `BitVector` that is not displaced are packed into words of 32 bits.

* `BitWellFormed`, `BitRoom`, **`bitAppends_iff`**: when `push_extend` appends.
-/

namespace Xcl.Vectors

open Loops BitVectors

/-- A bit vector, and the bits of the array it is displaced to. -/
abbrev BitState := State (BitVec 32) Bool

/-- `set_bit` and `clear_bit`, in storage -/
def setBit (data : List (BitVec 32)) (index : ℕ) (bit : Bool) : Result (List (BitVec 32)) := do
  let word ← read data (index >>> 5)
  write data (index >>> 5)
    (if bit then word ||| 1#32 <<< (index &&& 31) else word &&& ~~~(1#32 <<< (index &&& 31)))

/-- `get_bit`, in storage -/
def getBit (data : List (BitVec 32)) (index : ℕ) : Result Bool := do
  return (← read data (index >>> 5)) &&& 1#32 <<< (index &&& 31) != 0

/-- `aref` -/
def bitAref (s : BitState) (i : ℕ) : Result Bool :=
  if s.vector.capacity ≤ i then throw .badIndex
  else
    match s.vector.storage with
    | .owned data => getBit data i
    | .displaced offset => arrayAref s.array (i + offset)

/-- The number of words that `ensure_capacity` allocates for a displaced vector: it is the number
of words that is tested for unused bits. -/
def displacedSize (requiredCapacity : ℕ) : ℕ :=
  let size := requiredCapacity >>> 5
  if size &&& 31 ≠ 0 then size + 1 else size

variable (fresh : ℕ → BitVec 32)

/-- `ensure_capacity` -/
def bitEnsureCapacity (s : BitState) (requiredCapacity : ℕ) : Result BitState :=
  match s.vector.storage with
  | .owned data =>
    if s.vector.capacity < requiredCapacity then do
      let oldSize := dataLength s.vector.capacity
      let capacity := newCapacity s.vector.capacity requiredCapacity
      let newSize := dataLength capacity
      let newData ← forLoop (fun i newData => do write newData i (← read data i)) oldSize 0
        (malloc fresh newSize)
      let newData ← forLoop (fun i newData => write newData i 0) (newSize - oldSize) oldSize newData
      return { s with vector := { s.vector with capacity := capacity, storage := .owned newData } }
    else return s
  | .displaced offset =>
    let rest := unsignedSub s.array.length offset
    if s.vector.capacity < requiredCapacity ∨ rest < requiredCapacity then do
      -- Copy array.
      let limit := if rest > s.vector.capacity then s.vector.capacity else rest
      let data ← forLoop (fun i data => do setBit data i (← arrayAref s.array (i + offset))) limit 0
        (malloc fresh (displacedSize requiredCapacity))
      return { s with vector := { s.vector with
        capacity := requiredCapacity, storage := .owned data } }
    else return s

/-- The end of `push_extend`. -/
def bitPushElement (s : BitState) (x : Bool) : Result (BitState × ℕ) :=
  let v := s.vector
  if v.fillPointer < v.capacity then
    match v.storage with
    | .owned data => do
      let data ← setBit data v.fillPointer x
      return ({ s with vector := { v with
        fillPointer := v.fillPointer + 1, storage := .owned data } }, v.fillPointer)
    | .displaced offset => do
      let array ← arrayAset s.array (v.fillPointer + offset) x
      return (⟨{ v with fillPointer := v.fillPointer + 1 }, array⟩, v.fillPointer)
  else throw .assertion

/-- `push_extend` -/
def bitPushExtend (s : BitState) (x : Bool) (extension : ℕ) : Result (BitState × ℕ) := do
  checkFillPointer s.vector
  let s ←
    if s.vector.fillPointer ≥ s.vector.capacity then
      bitEnsureCapacity fresh s (s.vector.fillPointer + extension)
    else pure s
  bitPushElement s x

/-- `adjust_vector`, without initial contents. Both sizes are computed from the new capacity. -/
def bitAdjustVector (s : BitState) (newCapacity : ℕ) (initialElement : Bool) : Result BitState := do
  let v := s.vector
  let data ←
    match v.storage with
    | .displaced offset =>
      -- Copy array.
      forLoop (fun i data => do setBit data i (← arrayAref s.array (offset + i))) v.capacity 0
        (malloc fresh (dataLength v.capacity))
    | .owned data => pure data
  let data ←
    if v.capacity ≠ newCapacity then do
      let newSize := dataLength newCapacity
      let oldSize := dataLength newCapacity
      let limit := if newSize < oldSize then newSize else oldSize
      let newData ← forLoop (fun i newData => do write newData i (← read data i)) limit 0
        (malloc fresh newSize)
      if newCapacity > v.capacity then
        forLoop (fun i data => setBit data i initialElement) (newCapacity - v.capacity) v.capacity
          newData
      else pure newData
    else pure data
  return { s with vector := { v with
    capacity := newCapacity
    fillPointer := if v.fillPointer > newCapacity then newCapacity else v.fillPointer
    storage := .owned data } }

/-! ## Bits in storage -/

variable {data data' : List (BitVec 32)} {index : ℕ} {bit : Bool}

theorem setBit_eq_ok : setBit data index bit = .ok data' ↔
    index < data.length * 32 ∧ data' = PackedBits.put data index bit := by
  have hinside : index < data.length * 32 ↔ index / 32 < data.length := by omega
  unfold setBit
  rw [hinside, and_thirtyOne, shiftRight_five, bind_eq_ok]
  constructor
  · rintro ⟨word, hword, hw⟩
    obtain ⟨hlt, rfl⟩ := write_eq_ok.mp hw
    refine ⟨hlt, ?_⟩
    rw [PackedBits.put, List.modify_eq_set_getElem?, read_eq_ok.mp hword]
    rfl
  · rintro ⟨hlt, rfl⟩
    refine ⟨data[index / 32], read_eq_ok.mpr (List.getElem?_eq_getElem hlt),
      write_eq_ok.mpr ⟨hlt, ?_⟩⟩
    rw [PackedBits.put, List.modify_eq_set_getElem?, List.getElem?_eq_getElem hlt]
    rfl

theorem getBit_eq_ok : getBit data index = .ok bit ↔
    index < data.length * 32 ∧ PackedBits.get data index = bit := by
  have hinside : index < data.length * 32 ↔ index / 32 < data.length := by omega
  unfold getBit
  rw [hinside, and_thirtyOne, shiftRight_five, bind_eq_ok]
  have hbit : ∀ word : BitVec 32, (word &&& 1#32 <<< (index % 32) != 0) =
      word.getLsbD (index % 32) := fun word =>
    PackedBits.and_one_shiftLeft_bne word (Nat.mod_lt index (by decide))
  constructor
  · rintro ⟨word, hword, hw⟩
    have hword := read_eq_ok.mp hword
    refine ⟨(List.getElem?_eq_some_iff.mp hword).1, ?_⟩
    rw [PackedBits.get, List.getD_eq_getElem?_getD, hword]
    exact (hbit word).symm.trans (Except.ok.inj hw)
  · rintro ⟨hlt, rfl⟩
    refine ⟨data[index / 32], read_eq_ok.mpr (List.getElem?_eq_getElem hlt), ?_⟩
    rw [PackedBits.get, List.getD_eq_getElem?_getD, List.getElem?_eq_getElem hlt]
    exact congrArg Except.ok (hbit _)

/-- **A loop that sets a bit in every round.** -/
theorem forLoop_setBit (body : ℕ → List (BitVec 32) → Result (List (BitVec 32))) (a : ℕ → Bool)
    (lo n : ℕ) (data : List (BitVec 32))
    (hbody : ∀ j d, lo ≤ j → j < lo + n → body j d = setBit d j (a j))
    (hlength : lo + n ≤ data.length * 32) :
    ∃ d, forLoop body n lo data = .ok d ∧ d.length = data.length ∧
      ∀ i, PackedBits.get d i = if lo ≤ i ∧ i < lo + n then a i else PackedBits.get data i := by
  have hloop := forLoop_ok body (n := n) (i := lo) (s := data)
    (P := fun j d => d.length = data.length ∧
      ∀ i, PackedBits.get d i = if lo ≤ i ∧ i < j then a i else PackedBits.get data i) ?_ ?_
  · obtain ⟨d, hd, hdl, hdi⟩ := hloop
    exact ⟨d, hd, hdl, hdi⟩
  · refine ⟨rfl, fun i => ?_⟩
    rw [if_neg (by omega)]
  · rintro j d hj hj' ⟨hdl, hdi⟩
    have hinside : j < d.length * 32 := by rw [hdl]; omega
    refine ⟨PackedBits.put d j (a j), ?_, by rw [PackedBits.length_put, hdl], fun i => ?_⟩
    · rw [hbody j d hj hj', setBit_eq_ok.mpr ⟨hinside, rfl⟩]
    · rw [PackedBits.get_put hinside]
      by_cases hij : i = j
      · subst hij
        rw [if_pos rfl, if_pos (by omega)]
      · rw [if_neg hij, hdi i]
        have hlt : (lo ≤ i ∧ i < j) ↔ (lo ≤ i ∧ i < j + 1) := by omega
        simp only [hlt]

theorem length_of_setBit (h : setBit data index bit = .ok data') :
    data'.length = data.length ∧ index < data.length * 32 := by
  obtain ⟨hinside, rfl⟩ := setBit_eq_ok.mp h
  exact ⟨PackedBits.length_put, hinside⟩

/-! ## `push_extend` -/

def BitRoom (s : BitState) (extension : ℕ) : Prop :=
  let f := s.vector.fillPointer
  match s.vector.storage with
  | .owned _ => True
  | .displaced offset =>
    if f < s.vector.capacity then f + offset < s.array.length
    else (f = 0 ∨ f + offset ≤ s.array.length) ∧ f < displacedSize (f + extension) * 32

variable {fresh : ℕ → BitVec 32} {s : BitState} {x : Bool} {extension i : ℕ}

theorem bitAref_owned (h : s.vector.storage = .owned data) (hi : i < s.vector.capacity) :
    bitAref s i = getBit data i := by
  rw [bitAref, if_neg (Nat.not_le_of_lt hi), h]

theorem bitAref_displaced {offset : ℕ} (h : s.vector.storage = .displaced offset)
    (hi : i < s.vector.capacity) : bitAref s i = arrayAref s.array (i + offset) := by
  rw [bitAref, if_neg (Nat.not_le_of_lt hi), h]

theorem bitAref_mk_owned {capacity fillPointer : ℕ} {hasFillPointer : Bool} {array : List Bool}
    (hi : i < capacity) :
    bitAref ⟨⟨capacity, hasFillPointer, fillPointer, .owned data⟩, array⟩ i = getBit data i :=
  bitAref_owned rfl hi

theorem bitAref_mk_displaced {capacity fillPointer offset : ℕ} {hasFillPointer : Bool}
    {array : List Bool} (hi : i < capacity) :
    bitAref ⟨⟨capacity, hasFillPointer, fillPointer, .displaced offset⟩, array⟩ i =
      arrayAref array (i + offset) := bitAref_displaced rfl hi

theorem getBit_congr (h : i < data.length * 32) (h' : i < data'.length * 32)
    (heq : PackedBits.get data i = PackedBits.get data' i) : getBit data i = getBit data' i := by
  rw [getBit_eq_ok.mpr ⟨h, heq⟩, getBit_eq_ok.mpr ⟨h', rfl⟩]

theorem appends_bitPushElement_owned {s' : BitState} (hstorage : s'.vector.storage = .owned data)
    (hfill : s'.vector.fillPointer = s.vector.fillPointer)
    (hcapacity : s.vector.fillPointer < s'.vector.capacity)
    (hlength : s.vector.fillPointer < data.length * 32)
    (hbelow : ∀ i < s.vector.fillPointer, getBit data i = bitAref s i)
    (harray : s'.array = s.array) : Appends bitAref s x (bitPushElement s' x) := by
  have hset := setBit_eq_ok.mpr (show _ ∧ _ = PackedBits.put data s.vector.fillPointer x from
    ⟨hlength, rfl⟩)
  refine ⟨⟨{ s'.vector with
    fillPointer := s.vector.fillPointer + 1
    storage := .owned (PackedBits.put data s.vector.fillPointer x) }, s'.array⟩, ?_, rfl, ?_, ?_,
    fun _ _ => harray⟩
  · simp only [bitPushElement, hfill, if_pos hcapacity, hstorage, hset]
    rfl
  · intro i hi
    refine (bitAref_mk_owned (hi.trans hcapacity)).trans ?_
    rw [← hbelow i hi]
    refine getBit_congr (by rw [PackedBits.length_put]; omega) (by omega) ?_
    exact PackedBits.get_put_of_ne (Nat.ne_of_lt hi)
  · refine (bitAref_mk_owned hcapacity).trans (getBit_eq_ok.mpr ⟨?_, ?_⟩)
    · rwa [PackedBits.length_put]
    · exact PackedBits.get_put_self hlength

theorem appends_bitPushElement_displaced {offset : ℕ}
    (hstorage : s.vector.storage = .displaced offset)
    (hcapacity : s.vector.fillPointer < s.vector.capacity) :
    Appends bitAref s x (bitPushElement s x) ↔
      s.vector.fillPointer + offset < s.array.length := by
  constructor
  · rintro ⟨s', h, -⟩
    simp only [bitPushElement, if_pos hcapacity, hstorage] at h
    obtain ⟨array, harray, -⟩ := bind_eq_ok.mp h
    exact (arrayAset_eq_ok.mp harray).1
  · intro hlt
    obtain ⟨⟨capacity, hasFillPointer, f, storage⟩, array⟩ := s
    obtain rfl : storage = .displaced offset := hstorage
    have haset : arrayAset array (f + offset) x = .ok (array.set (f + offset) x) :=
      arrayAset_eq_ok.mpr ⟨hlt, rfl⟩
    refine ⟨⟨⟨capacity, hasFillPointer, f + 1, .displaced offset⟩, array.set (f + offset) x⟩, ?_,
      rfl, ?_, ?_, ?_⟩
    · simp only [bitPushElement, if_pos hcapacity, haset]
      rfl
    · intro i hi
      rw [bitAref_mk_displaced (hi.trans hcapacity), bitAref_mk_displaced (hi.trans hcapacity)]
      have hne : f + offset ≠ i + offset := Nat.ne_of_gt (Nat.add_lt_add_right hi offset)
      simp only [arrayAref, List.getElem?_set_ne hne]
    · exact (bitAref_mk_displaced hcapacity).trans
        (arrayAref_eq_ok.mpr (List.getElem?_set_self hlt))
    · rintro - ⟨data, hdata⟩
      cases hdata

theorem dataLength_mono {a b : ℕ} (h : a ≤ b) : dataLength a ≤ dataLength b := by
  simp only [dataLength, and_thirtyOne, shiftRight_five]
  split_ifs <;> omega

theorem div_lt_dataLength {capacity : ℕ} (h : i < capacity) : i / 32 < dataLength capacity := by
  have := le_dataLength capacity
  omega

theorem get_of_words {n : ℕ} (h : ∀ i < n, data'[i]? = data[i]?) (hi : i / 32 < n) :
    PackedBits.get data' i = PackedBits.get data i := by
  rw [PackedBits.get, PackedBits.get, List.getD_eq_getElem?_getD, List.getD_eq_getElem?_getD,
    h _ hi]

theorem bitEnsureCapacity_owned (fresh : ℕ → BitVec 32) {n : ℕ} (h : s.WellFormed dataLength)
    (hstorage : s.vector.storage = .owned data) (hn : s.vector.capacity < n) :
    ∃ d, bitEnsureCapacity fresh s n = .ok { s with vector := { s.vector with
        capacity := newCapacity s.vector.capacity n, storage := .owned d } } ∧
      d.length = dataLength (newCapacity s.vector.capacity n) ∧
      ∀ i < s.vector.capacity, PackedBits.get d i = PackedBits.get data i := by
  have hlt := lt_newCapacity hn
  have hdata := h.owned data hstorage
  have hmono := dataLength_mono hlt.le
  generalize hcap : newCapacity s.vector.capacity n = capacity at *
  obtain ⟨d₁, hd₁, hl₁, hi₁⟩ := forLoop_write
    (fun i newData => do write newData i (← read data i)) (fun i => data.getD i 0) 0
    (dataLength s.vector.capacity) (malloc fresh (dataLength capacity)) (fun j d _ hj => by
      have hread : read data j = .ok (data.getD j 0) := by
        rw [read_eq_ok, List.getD_eq_getElem?_getD, List.getElem?_eq_getElem (by omega)]
        rfl
      rw [hread]
      rfl)
    (by rw [length_malloc]; omega)
  obtain ⟨d, hd, hl, hi⟩ := forLoop_write (fun i newData => write newData i 0) (fun _ => 0)
    (dataLength s.vector.capacity) (dataLength capacity - dataLength s.vector.capacity) d₁
    (fun _ _ _ _ => rfl) (by rw [hl₁, length_malloc]; omega)
  refine ⟨d, ?_, by rw [hl, hl₁, length_malloc], fun i hic => ?_⟩
  · simp only [bitEnsureCapacity, hstorage, if_pos hn, hcap]
    exact bind_eq_ok.mpr ⟨d₁, hd₁, bind_eq_ok.mpr ⟨d, hd, rfl⟩⟩
  · refine get_of_words (fun j hj => ?_) (div_lt_dataLength hic)
    rw [hi j, if_neg (by omega), hi₁ j, if_pos (by omega), List.getD_eq_getElem?_getD,
      List.getElem?_eq_getElem (by omega)]
    rfl

theorem bitEnsureCapacity_displaced (fresh : ℕ → BitVec 32) {offset n : ℕ}
    (h : s.WellFormed dataLength) (hstorage : s.vector.storage = .displaced offset)
    (hn : s.vector.capacity < n)
    (hrest : s.vector.capacity = 0 ∨ s.vector.capacity + offset ≤ s.array.length)
    (hroom : s.vector.capacity ≤ displacedSize n * 32) :
    ∃ d, bitEnsureCapacity fresh s n = .ok { s with vector := { s.vector with
        capacity := n, storage := .owned d } } ∧
      d.length = displacedSize n ∧
      ∀ i < s.vector.capacity, s.array[i + offset]? = some (PackedBits.get d i) := by
  have hlimit : (if unsignedSub s.array.length offset > s.vector.capacity then s.vector.capacity
      else unsignedSub s.array.length offset) = s.vector.capacity := by
    rcases hrest with hzero | hle
    · rw [hzero]
      split_ifs <;> omega
    · rw [unsignedSub_of_le (by omega) h.array]
      split_ifs <;> omega
  have helement : ∀ i < s.vector.capacity, s.array[i + offset]? =
      some (s.array.getD (i + offset) false) := fun i hi => by
    rw [List.getD_eq_getElem?_getD, List.getElem?_eq_getElem (by omega)]
    rfl
  obtain ⟨d, hd, hl, hi⟩ := forLoop_setBit
    (fun i data => do setBit data i (← arrayAref s.array (i + offset)))
    (fun i => s.array.getD (i + offset) false) 0 s.vector.capacity
    (malloc fresh (displacedSize n)) (fun j d _ hj => by
      rw [arrayAref_eq_ok.mpr (helement j (by omega))]
      rfl)
    (by rw [length_malloc]; omega)
  refine ⟨d, ?_, by rw [hl, length_malloc], fun i hic => ?_⟩
  · simp only [bitEnsureCapacity, hstorage, if_pos (Or.inl hn), hlimit]
    exact bind_eq_ok.mpr ⟨d, hd, rfl⟩
  · rw [helement i hic, hi i, if_pos (by omega)]

theorem bitEnsureCapacity_displaced_eq_ok {s' : BitState} {offset n : ℕ}
    (h : s.WellFormed dataLength) (hstorage : s.vector.storage = .displaced offset)
    (hn : s.vector.capacity < n) (hok : bitEnsureCapacity fresh s n = .ok s') :
    (s.vector.capacity = 0 ∨ offset ≤ s.array.length) ∧
      ∃ d, s' = { s with vector := { s.vector with capacity := n, storage := .owned d } } ∧
      d.length = displacedSize n := by
  have hoffset := h.offset offset hstorage
  have hcapacity := h.capacity
  simp only [bitEnsureCapacity, hstorage, if_pos (Or.inl hn)] at hok
  obtain ⟨d, hd, hok⟩ := bind_eq_ok.mp hok
  cases hok
  obtain ⟨hl, hround⟩ := forLoop_length
    (Q := fun j _ => ∃ a, arrayAref s.array (j + offset) = .ok a) (fun j d d' hw => by
      obtain ⟨a, ha, hw⟩ := bind_eq_ok.mp hw
      exact ⟨(length_of_setBit hw).1, a, ha⟩) hd
  refine ⟨?_, d, rfl, by rw [hl, length_malloc]⟩
  by_contra hno
  rw [not_or, not_le] at hno
  have hrest := le_unsignedSub_of_lt hno.2 hoffset
  obtain ⟨a, ha⟩ := hround 0 (Nat.le_refl 0) (by rw [if_pos (by omega)]; omega)
  rw [arrayAref_eq_ok, List.getElem?_eq_none (by omega)] at ha
  cases ha

theorem bitPushExtend_of_lt {size : ℕ → ℕ} (h : s.WellFormed size)
    (hlt : s.vector.fillPointer < s.vector.capacity) :
    bitPushExtend fresh s x extension = bitPushElement s x := by
  simp only [bitPushExtend, checkFillPointer, h.hasFillPointer, if_true,
    if_neg (Nat.not_le_of_lt hlt)]
  rfl

theorem bitPushExtend_of_le {size : ℕ → ℕ} (h : s.WellFormed size)
    (hle : s.vector.capacity ≤ s.vector.fillPointer) :
    bitPushExtend fresh s x extension =
      bitEnsureCapacity fresh s (s.vector.fillPointer + extension) >>= fun s =>
        bitPushElement s x := by
  simp only [bitPushExtend, checkFillPointer, h.hasFillPointer, if_true, if_pos (show
    s.vector.fillPointer ≥ s.vector.capacity from hle)]
  rfl

theorem bitAppends_owned (h : s.WellFormed dataLength) (hextension : 0 < extension)
    (hstorage : s.vector.storage = .owned data) :
    Appends bitAref s x (bitPushExtend fresh s x extension) := by
  have hfill := h.fillPointer
  have hdata := h.owned data hstorage
  have hbits := le_dataLength s.vector.capacity
  by_cases hlt : s.vector.fillPointer < s.vector.capacity
  · rw [bitPushExtend_of_lt h hlt]
    exact appends_bitPushElement_owned hstorage rfl hlt (by omega)
      (fun i hi => (bitAref_owned hstorage (by omega)).symm) rfl
  · rw [bitPushExtend_of_le h (not_lt.mp hlt)]
    have hn : s.vector.capacity < s.vector.fillPointer + extension := by omega
    have hcapacity := lt_newCapacity hn
    have hnew := le_dataLength (newCapacity s.vector.capacity (s.vector.fillPointer + extension))
    obtain ⟨d, hd, hl, hi⟩ := bitEnsureCapacity_owned fresh h hstorage hn
    rw [hd]
    refine appends_bitPushElement_owned rfl rfl (by dsimp only; omega) (by omega)
      (fun i hif => ?_) rfl
    rw [bitAref_owned hstorage (by omega)]
    exact getBit_congr (by omega) (by omega) (hi i (by omega))

theorem bitAppends_iff_displaced (h : s.WellFormed dataLength) (hextension : 0 < extension)
    {offset : ℕ} (hstorage : s.vector.storage = .displaced offset) :
    Appends bitAref s x (bitPushExtend fresh s x extension) ↔ BitRoom s extension := by
  have hfill := h.fillPointer
  simp only [BitRoom, hstorage]
  by_cases hlt : s.vector.fillPointer < s.vector.capacity
  · rw [bitPushExtend_of_lt h hlt, if_pos hlt]
    exact appends_bitPushElement_displaced hstorage hlt
  rw [bitPushExtend_of_le h (not_lt.mp hlt), if_neg hlt]
  have heq : s.vector.capacity = s.vector.fillPointer := by omega
  have hn : s.vector.capacity < s.vector.fillPointer + extension := by omega
  constructor
  · rintro ⟨s', hok, -, hbelow, -⟩
    obtain ⟨s₁, hs₁, hok⟩ := bind_eq_ok.mp hok
    obtain ⟨hoffset, d, rfl, hl⟩ := bitEnsureCapacity_displaced_eq_ok h hstorage hn hs₁
    simp only [bitPushElement, if_pos (show s.vector.fillPointer <
      s.vector.fillPointer + extension by omega)] at hok
    obtain ⟨d', hd', hok⟩ := bind_eq_ok.mp hok
    cases hok
    obtain ⟨hlength, rfl⟩ := setBit_eq_ok.mp hd'
    rw [hl] at hlength
    refine ⟨?_, hlength⟩
    by_contra hno
    rw [not_or, not_le] at hno
    -- the last element was no element of the array
    have hlast := hbelow (s.vector.fillPointer - 1) (by omega)
    rw [bitAref_displaced hstorage (by omega), arrayAref, List.getElem?_eq_none (by omega)] at hlast
    have hread := (bitAref_mk_owned (i := s.vector.fillPointer - 1) (by omega)).symm.trans hlast
    rw [getBit_eq_ok.mpr ⟨by rw [PackedBits.length_put]; omega, rfl⟩] at hread
    cases hread
  · rintro ⟨hcovers, hroom⟩
    obtain ⟨d, hd, hl, hi⟩ := bitEnsureCapacity_displaced fresh h hstorage hn (heq ▸ hcovers)
      (by omega)
    rw [hd]
    refine appends_bitPushElement_owned rfl rfl (by dsimp only; omega) (by omega)
      (fun i hif => ?_) rfl
    rw [bitAref_displaced hstorage (by omega), arrayAref_eq_ok.mpr (hi i (by omega)),
      getBit_eq_ok.mpr ⟨by omega, rfl⟩]

/-- **`push_extend` appends a bit exactly when there is room.** -/
theorem bitAppends_iff (h : s.WellFormed dataLength) (hextension : 0 < extension) :
    Appends bitAref s x (bitPushExtend fresh s x extension) ↔ BitRoom s extension := by
  cases hstorage : s.vector.storage with
  | owned data =>
    refine iff_of_true (bitAppends_owned h hextension hstorage) ?_
    simp only [BitRoom, hstorage]
  | displaced offset => exact bitAppends_iff_displaced h hextension hstorage

end Xcl.Vectors
