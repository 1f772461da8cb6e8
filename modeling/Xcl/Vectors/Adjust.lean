import Xcl.Vectors.PushExtend

/-!
# `adjust-array` on vectors

* `Adjusts`: what `adjust_vector` should do;
* **`adjustVector_adjusts_iff`**: for each class.
-/

namespace Xcl.Vectors

open Loops BitVectors

variable {δ ε : Type}

/-- The new capacity, the old elements below both capacities and the initial element above the old
one, and a fill pointer within the capacity. -/
def Adjusts (aref : State δ ε → ℕ → Result ε) (s : State δ ε) (newCapacity : ℕ) (e : ε)
    (result : Result (State δ ε)) : Prop :=
  ∃ s', result = .ok s' ∧ s'.vector.capacity = newCapacity ∧
    (∀ i, i < s.vector.capacity → i < newCapacity → aref s' i = aref s i) ∧
    (∀ i, s.vector.capacity ≤ i → i < newCapacity → aref s' i = .ok e) ∧
    s'.vector.fillPointer ≤ newCapacity

variable {K : Kind δ ε} {fresh : ℕ → δ} {s : State δ ε} {capacity newCapacity : ℕ} {e : ε}

/-! ## The new storage -/

theorem adjusted_ok (fresh : ℕ → δ) (get : ℕ → Result δ) (a : ℕ → δ)
    (hget : ∀ i, i < capacity → i < newCapacity → get i = .ok (a i))
    (hallocated : newCapacity ≤ K.allocated newCapacity) :
    ∃ d, adjusted K fresh get capacity newCapacity e = .ok d ∧ newCapacity ≤ d.length ∧
      (∀ i, i < capacity → i < newCapacity → d[i]? = some (a i)) ∧
      ∀ i, capacity ≤ i → i < newCapacity → d[i]? = some (K.initial e) := by
  have hlimit : ∀ i, i < (if capacity < newCapacity then capacity else newCapacity) ↔
      i < capacity ∧ i < newCapacity := fun i => by split_ifs <;> omega
  obtain ⟨d₁, hd₁, hl₁, hi₁⟩ := forLoop_write (fun i data => do write data i (← get i)) a 0
    (if capacity < newCapacity then capacity else newCapacity)
    (malloc fresh (K.allocated newCapacity)) (fun j d _ hj => by
      rw [Nat.zero_add, hlimit] at hj
      rw [hget j hj.1 hj.2]
      rfl)
    (by rw [length_malloc]; split_ifs <;> omega)
  rw [length_malloc] at hl₁
  by_cases hgrows : capacity ≤ newCapacity
  · obtain ⟨d, hd, hl, hi⟩ := forLoop_write (fun i data => write data i (K.initial e))
      (fun _ => K.initial e) capacity (newCapacity - capacity) d₁ (fun _ _ _ _ => rfl) (by omega)
    refine ⟨d, bind_eq_ok.mpr ⟨d₁, hd₁, hd⟩, by omega, fun i hc hn => ?_, fun i hc hn => ?_⟩
    · have hcopied : 0 ≤ i ∧ i < 0 + (if capacity < newCapacity then capacity else newCapacity) :=
        ⟨Nat.zero_le i, by rw [Nat.zero_add, hlimit]; exact ⟨hc, hn⟩⟩
      rw [hi i, if_neg (by omega), hi₁ i, if_pos hcopied]
    · rw [hi i, if_pos (by omega)]
  · refine ⟨d₁, bind_eq_ok.mpr ⟨d₁, hd₁, ?_⟩, by omega, fun i hc hn => ?_, fun i hc hn => by omega⟩
    · rw [Nat.sub_eq_zero_of_le (by omega)]
      rfl
    · rw [hi₁ i, if_pos ⟨Nat.zero_le i, by rw [Nat.zero_add, hlimit]; omega⟩]

theorem get_of_adjusted {get : ℕ → Result δ} {d : List δ}
    (h : adjusted K fresh get capacity newCapacity e = .ok d) {i : ℕ} (hc : i < capacity)
    (hn : i < newCapacity) : ∃ x, get i = .ok x := by
  obtain ⟨d₁, hd₁, -⟩ := bind_eq_ok.mp h
  exact ((forLoop_length (Q := fun j n => j < n ∧ ∃ x, get j = .ok x)
    (fun _ _ _ => length_of_read_write) hd₁).2 i (Nat.zero_le i) (by split_ifs <;> omega)).2

/-! ## The three classes -/

/-- The array covers the elements that are copied. -/
def Copies (s : State δ ε) (limit : ℕ) : Prop :=
  ∀ offset, s.vector.storage = .displaced offset → ∀ i < limit, i + offset < s.array.length

def adjustedState (s : State δ ε) (newCapacity : ℕ) (data : List δ) : State δ ε :=
  { s with vector := { s.vector with
    capacity := newCapacity
    fillPointer :=
      if s.vector.fillPointer > newCapacity then newCapacity else s.vector.fillPointer
    storage := .owned data } }

theorem fillPointer_adjustedState (s : State δ ε) (newCapacity : ℕ) (data : List δ) :
    (adjustedState s newCapacity data).vector.fillPointer ≤ newCapacity := by
  simp only [adjustedState]
  split_ifs <;> omega

theorem aref_adjustedState {data : List δ} {i : ℕ} (h : i < newCapacity) :
    aref K (adjustedState s newCapacity data) i = K.load <$> read data i := aref_mk_owned h

/-- The old elements are kept, so that all depends on the initial element. -/
theorem adjusts_iff_initial {data : List δ}
    (hbelow : ∀ i, i < s.vector.capacity → i < newCapacity →
      ∃ x, data[i]? = some x ∧ aref K s i = .ok (K.load x))
    (habove : ∀ i, s.vector.capacity ≤ i → i < newCapacity → data[i]? = some (K.initial e)) :
    Adjusts (aref K) s newCapacity e (.ok (adjustedState s newCapacity data)) ↔
      (s.vector.capacity < newCapacity → K.load (K.initial e) = e) := by
  have hread : ∀ {i x}, i < newCapacity → data[i]? = some x →
      aref K (adjustedState s newCapacity data) i = .ok (K.load x) := fun hn hx => by
    rw [aref_adjustedState hn, read_eq_ok.mpr hx]
    rfl
  constructor
  · rintro ⟨s', hs', -, -, hfilled, -⟩ hlt
    cases hs'
    have h := hfilled s.vector.capacity (Nat.le_refl _) hlt
    rw [hread hlt (habove _ (Nat.le_refl _) hlt)] at h
    exact Except.ok.inj h
  · intro h
    refine ⟨_, rfl, rfl, fun i hc hn => ?_, fun i hc hn => ?_, fillPointer_adjustedState ..⟩
    · obtain ⟨x, hx, harefx⟩ := hbelow i hc hn
      rw [hread hn hx, harefx]
    · rw [hread hn (habove i hc hn), h (Nat.lt_of_le_of_lt hc hn)]

theorem adjustVector_displaced {offset : ℕ} (h : s.vector.storage = .displaced offset) :
    adjustVector K fresh s newCapacity e =
      adjusted K fresh (fun i => K.store <$> arrayAref s.array (i + offset)) s.vector.capacity
        newCapacity e >>= fun data => pure (adjustedState s newCapacity data) := by
  simp only [adjustVector, h, pure_bind]
  rfl

theorem adjustVector_owned {data : List δ} (h : s.vector.storage = .owned data)
    (hne : s.vector.capacity ≠ newCapacity) : adjustVector K fresh s newCapacity e =
      adjusted K fresh (read data) s.vector.capacity newCapacity e >>= fun data =>
        pure (adjustedState s newCapacity data) := by
  simp only [adjustVector, h, if_pos hne, pure_bind]
  rfl

theorem adjustVector_same {data : List δ} (h : s.vector.storage = .owned data) :
    adjustVector K fresh s s.vector.capacity e =
      .ok (adjustedState s s.vector.capacity data) := by
  simp only [adjustVector, h, ne_eq, not_true_eq_false, if_false, pure_bind]
  rfl

theorem adjustVector_eq_ok {s' : State δ ε} (h : adjustVector K fresh s newCapacity e = .ok s') :
    ∃ data, s' = adjustedState s newCapacity data := by
  cases hstorage : s.vector.storage with
  | owned data =>
    by_cases heq : s.vector.capacity = newCapacity
    · subst heq
      rw [adjustVector_same hstorage] at h
      exact ⟨data, (Except.ok.inj h).symm⟩
    · rw [adjustVector_owned hstorage heq] at h
      obtain ⟨d, -, hd⟩ := bind_eq_ok.mp h
      exact ⟨d, (Except.ok.inj hd).symm⟩
  | displaced offset =>
    rw [adjustVector_displaced hstorage] at h
    obtain ⟨d, -, hd⟩ := bind_eq_ok.mp h
    exact ⟨d, (Except.ok.inj hd).symm⟩

/-- **`adjust_vector` keeps and fills** exactly when the other array covers what is copied and the
initial element is read as it was given. -/
theorem adjusts_iff (hload : ∀ x, K.load (K.store x) = x) (h : s.Sound id)
    (hallocated : newCapacity ≤ K.allocated newCapacity) :
    Adjusts (aref K) s newCapacity e (adjustVector K fresh s newCapacity e) ↔
      Copies s (min s.vector.capacity newCapacity) ∧
        (s.vector.capacity < newCapacity → K.load (K.initial e) = e) := by
  cases hstorage : s.vector.storage with
  | owned data =>
    have hdata : s.vector.capacity ≤ data.length := h.owned data hstorage
    have hcopies : Copies s (min s.vector.capacity newCapacity) := fun offset hoffset => by
      rw [hstorage] at hoffset
      cases hoffset
    have helement : ∀ i < s.vector.capacity, read data i = .ok (data.getD i (K.store e)) :=
      fun i hi => by
        rw [read_eq_ok, List.getD_eq_getElem?_getD, List.getElem?_eq_getElem (by omega)]
        rfl
    have haref : ∀ i < s.vector.capacity,
        aref K s i = .ok (K.load (data.getD i (K.store e))) := fun i hi => by
      rw [aref_owned hstorage hi, helement i hi]
      rfl
    rw [and_iff_right hcopies]
    by_cases heq : s.vector.capacity = newCapacity
    · subst heq
      rw [adjustVector_same hstorage]
      exact adjusts_iff_initial (fun i hc _ => ⟨_, read_eq_ok.mp (helement i hc), haref i hc⟩)
        fun i hc hn => by omega
    · obtain ⟨d, hd, -, hbelow, habove⟩ := adjusted_ok (K := K) (e := e) fresh (read data)
        (fun i => data.getD i (K.store e)) (fun i hc (_ : i < newCapacity) => helement i hc)
        hallocated
      rw [adjustVector_owned hstorage heq, hd]
      exact adjusts_iff_initial (fun i hc hn => ⟨_, hbelow i hc hn, haref i hc⟩) habove
  | displaced offset =>
    rw [adjustVector_displaced hstorage]
    have hcopies : Copies s (min s.vector.capacity newCapacity) ↔
        ∀ i, i < s.vector.capacity → i < newCapacity → i + offset < s.array.length := by
      simp only [Copies, hstorage, Storage.displaced.injEq, forall_eq', lt_min_iff, and_imp]
    rw [hcopies]
    by_cases hcovers : ∀ i, i < s.vector.capacity → i < newCapacity → i + offset < s.array.length
    · rw [and_iff_right hcovers]
      have helement : ∀ i, i < s.vector.capacity → i < newCapacity →
          arrayAref s.array (i + offset) = .ok (s.array.getD (i + offset) e) := fun i hc hn => by
        rw [arrayAref_eq_ok, List.getD_eq_getElem?_getD,
          List.getElem?_eq_getElem (hcovers i hc hn)]
        rfl
      obtain ⟨d, hd, -, hbelow, habove⟩ := adjusted_ok (K := K) (e := e) fresh
        (fun i => K.store <$> arrayAref s.array (i + offset))
        (fun i => K.store (s.array.getD (i + offset) e))
        (fun i hc hn => by rw [helement i hc hn]; rfl) hallocated
      rw [hd]
      refine adjusts_iff_initial (fun i hc hn => ⟨_, hbelow i hc hn, ?_⟩) habove
      rw [aref_displaced hstorage hc, helement i hc hn, hload]
    · refine iff_of_false (fun hadjusts => hcovers fun i hc hn => ?_) fun hboth => hcovers hboth.1
      obtain ⟨s', hok, -⟩ := hadjusts
      obtain ⟨d, hd, -⟩ := bind_eq_ok.mp hok
      obtain ⟨x, hx⟩ := get_of_adjusted hd hc hn
      by_contra hge
      rw [arrayAref, List.getElem?_eq_none (by omega)] at hx
      cases hx

/-! ## Bit vectors -/

def words (s : BitState) : ℕ :=
  match s.vector.storage with
  | .owned data => data.length
  | .displaced _ => dataLength s.vector.capacity

section Bits

variable {fresh : ℕ → BitVec 32} {s : BitState} {data d : List (BitVec 32)} {bit : Bool}

theorem bitAref_adjustedState {i : ℕ} (h : i < newCapacity) :
    bitAref (adjustedState s newCapacity d) i = getBit d i := bitAref_mk_owned h

theorem bitAdjusts_adjustedState (hstorage : s.vector.storage = .owned data)
    (hdata : s.vector.capacity ≤ data.length * 32) (hd : newCapacity ≤ d.length * 32)
    (hbelow : ∀ i, i < s.vector.capacity → i < newCapacity →
      PackedBits.get d i = PackedBits.get data i)
    (habove : ∀ i, s.vector.capacity ≤ i → i < newCapacity → PackedBits.get d i = bit) :
    Adjusts bitAref s newCapacity bit (.ok (adjustedState s newCapacity d)) := by
  refine ⟨_, rfl, rfl, fun i hc hn => ?_, fun i hc hn => ?_, fillPointer_adjustedState ..⟩
  · rw [bitAref_adjustedState hn, bitAref_owned hstorage hc]
    exact getBit_congr (by omega) (by omega) (hbelow i hc hn)
  · rw [bitAref_adjustedState hn]
    exact getBit_eq_ok.mpr ⟨by omega, habove i hc hn⟩

theorem bitAdjustVector_same (hstorage : s.vector.storage = .owned data) :
    bitAdjustVector fresh s s.vector.capacity bit =
      .ok (adjustedState s s.vector.capacity data) := by
  simp only [bitAdjustVector, hstorage, ne_eq, not_true_eq_false, if_false, pure_bind]
  rfl

theorem bitAdjustVector_owned (hstorage : s.vector.storage = .owned data)
    (hne : s.vector.capacity ≠ newCapacity) : bitAdjustVector fresh s newCapacity bit =
      forLoop (fun i newData => do write newData i (← read data i)) (dataLength newCapacity) 0
        (malloc fresh (dataLength newCapacity)) >>= fun newData =>
      (if newCapacity > s.vector.capacity then
        forLoop (fun i data => setBit data i bit) (newCapacity - s.vector.capacity)
          s.vector.capacity newData
      else pure newData) >>= fun data => pure (adjustedState s newCapacity data) := by
  simp only [bitAdjustVector, hstorage, if_pos hne, Nat.lt_irrefl, if_false, pure_bind]
  refine congrArg _ (funext fun newData => ?_)
  by_cases hgrows : newCapacity > s.vector.capacity
  · simp only [if_pos hgrows]
    rfl
  · simp only [if_neg hgrows, pure_bind]
    rfl

theorem bitAdjustVector_displaced {offset : ℕ} (hstorage : s.vector.storage = .displaced offset) :
    bitAdjustVector fresh s newCapacity bit =
      forLoop (fun i data => do setBit data i (← arrayAref s.array (offset + i))) s.vector.capacity
        0 (malloc fresh (dataLength s.vector.capacity)) >>= fun data =>
      bitAdjustVector fresh { s with vector := { s.vector with storage := .owned data } }
        newCapacity bit := by
  simp only [bitAdjustVector, hstorage, pure_bind]

theorem bitAdjusts_iff_owned (fresh : ℕ → BitVec 32) (bit : Bool)
    (hstorage : s.vector.storage = .owned data)
    (hdata : dataLength s.vector.capacity ≤ data.length) :
    Adjusts bitAref s newCapacity bit (bitAdjustVector fresh s newCapacity bit) ↔
      (s.vector.capacity < newCapacity → dataLength newCapacity ≤ data.length) := by
  have hold := le_dataLength s.vector.capacity
  have hnew := le_dataLength newCapacity
  by_cases heq : s.vector.capacity = newCapacity
  · subst heq
    rw [bitAdjustVector_same hstorage]
    exact iff_of_true (bitAdjusts_adjustedState hstorage (by omega) (by omega)
      (fun _ _ _ => rfl) (fun i hc hn => by omega)) fun hlt => absurd hlt (Nat.lt_irrefl _)
  rw [bitAdjustVector_owned hstorage heq]
  constructor
  · rintro ⟨s', hok, -⟩ hlt
    obtain ⟨d₁, hd₁, -⟩ := bind_eq_ok.mp hok
    obtain ⟨-, x, hx⟩ := (forLoop_length (Q := fun j n => j < n ∧ ∃ x, read data j = .ok x)
      (fun _ _ _ => length_of_read_write) hd₁).2 (dataLength newCapacity - 1) (by omega) (by omega)
    have hlast := (List.getElem?_eq_some_iff.mp (read_eq_ok.mp hx)).1
    omega
  · intro hgrows
    have hwords : dataLength newCapacity ≤ data.length := by
      rcases Nat.lt_or_gt_of_ne heq with hlt | hgt
      · exact hgrows hlt
      · exact (dataLength_mono (Nat.le_of_lt hgt)).trans hdata
    obtain ⟨d₁, hd₁, hl₁, hi₁⟩ := forLoop_write
      (fun i newData => do write newData i (← read data i)) (fun i => data.getD i 0) 0
      (dataLength newCapacity) (malloc fresh (dataLength newCapacity)) (fun j d _ hj => by
        have hread : read data j = .ok (data.getD j 0) := by
          rw [read_eq_ok, List.getD_eq_getElem?_getD, List.getElem?_eq_getElem (by omega)]
          rfl
        rw [hread]
        rfl)
      (by rw [length_malloc]; omega)
    rw [length_malloc] at hl₁
    have hbits : ∀ i < newCapacity, PackedBits.get d₁ i = PackedBits.get data i := fun i hi => by
      refine get_of_words (fun j hj => ?_) (div_lt_dataLength hi)
      rw [hi₁ j, if_pos (by omega), List.getD_eq_getElem?_getD,
        List.getElem?_eq_getElem (by omega)]
      rfl
    rw [hd₁]
    rcases Nat.lt_or_gt_of_ne heq with hlt | hgt
    · obtain ⟨d, hd, hl, hi⟩ := forLoop_setBit (fun i data => setBit data i bit) (fun _ => bit)
        s.vector.capacity (newCapacity - s.vector.capacity) d₁ (fun _ _ _ _ => rfl) (by omega)
      change Adjusts _ _ _ _ ((if newCapacity > s.vector.capacity then _ else _) >>= _)
      rw [if_pos hlt, hd]
      exact bitAdjusts_adjustedState hstorage (by omega) (by omega)
        (fun i hc hn => by rw [hi i, if_neg (by omega), hbits i hn])
        (fun i hc hn => by rw [hi i, if_pos (by omega)])
    · change Adjusts _ _ _ _ ((if newCapacity > s.vector.capacity then _ else _) >>= _)
      rw [if_neg (Nat.lt_asymm hgt)]
      exact bitAdjusts_adjustedState hstorage (by omega) (by omega) (fun i _ hn => hbits i hn)
        (fun i hc hn => by omega)

/-- **`adjust_vector` keeps and fills bits** exactly when the other array covers the vector and the
words that are copied are there. -/
theorem bitAdjusts_iff (h : s.Sound dataLength) :
    Adjusts bitAref s newCapacity bit (bitAdjustVector fresh s newCapacity bit) ↔
      Copies s s.vector.capacity ∧
        (s.vector.capacity < newCapacity → dataLength newCapacity ≤ words s) := by
  cases hstorage : s.vector.storage with
  | owned data =>
    have hcopies : Copies s s.vector.capacity := fun offset hoffset => by
      rw [hstorage] at hoffset
      cases hoffset
    simp only [words, hstorage]
    rw [bitAdjusts_iff_owned fresh bit hstorage (h.owned data hstorage), and_iff_right hcopies]
  | displaced offset =>
    rw [bitAdjustVector_displaced hstorage]
    have hcopies : Copies s s.vector.capacity ↔
        ∀ i < s.vector.capacity, i + offset < s.array.length := by
      simp only [Copies, hstorage, Storage.displaced.injEq, forall_eq']
    simp only [words, hstorage]
    rw [hcopies]
    by_cases hcovers : ∀ i < s.vector.capacity, i + offset < s.array.length
    · obtain ⟨d, hd, hl, hi⟩ := forLoop_setBit
        (fun i data => do setBit data i (← arrayAref s.array (offset + i)))
        (fun i => s.array.getD (i + offset) false) 0 s.vector.capacity
        (malloc fresh (dataLength s.vector.capacity)) (fun j d _ hj => by
          have haref : arrayAref s.array (offset + j) = .ok (s.array.getD (j + offset) false) := by
            rw [arrayAref_eq_ok, List.getD_eq_getElem?_getD, Nat.add_comm,
              List.getElem?_eq_getElem (hcovers j (by omega))]
            rfl
          rw [haref]
          rfl)
        (by rw [length_malloc, Nat.zero_add]; exact le_dataLength _)
      rw [length_malloc] at hl
      have hsame : ∀ i < s.vector.capacity,
          bitAref { s with vector := { s.vector with storage := .owned d } } i = bitAref s i :=
        fun i hc => by
          have hbits := le_dataLength s.vector.capacity
          rw [bitAref_displaced hstorage hc, arrayAref_eq_ok.mpr
            (List.getElem?_eq_getElem (hcovers i hc))]
          refine Eq.trans (b := getBit d i) (bitAref_mk_owned hc)
            (getBit_eq_ok.mpr ⟨by omega, ?_⟩)
          rw [hi i, if_pos (by omega), List.getD_eq_getElem?_getD,
            List.getElem?_eq_getElem (hcovers i hc)]
          rfl
      rw [hd, and_iff_right hcovers]
      have hiff : _ ↔ (s.vector.capacity < newCapacity → dataLength newCapacity ≤ d.length) :=
        bitAdjusts_iff_owned fresh bit
          (s := { s with vector := { s.vector with storage := .owned d } }) rfl
          (Nat.le_of_eq hl.symm)
      rw [hl] at hiff
      refine Iff.trans ?_ hiff
      refine exists_congr fun s' => and_congr_right fun _ => and_congr_right fun _ =>
        and_congr_left fun _ => forall_congr' fun i => forall_congr' fun hc => ?_
      rw [hsame i hc]
    · refine iff_of_false (fun hadjusts => hcovers fun i hc => ?_) fun hboth => hcovers hboth.1
      obtain ⟨s', hok, -⟩ := hadjusts
      obtain ⟨d, hd, -⟩ := bind_eq_ok.mp hok
      obtain ⟨x, hx⟩ := (forLoop_length
        (Q := fun j _ => ∃ a, arrayAref s.array (offset + j) = .ok a) (fun j d d' hw => by
          obtain ⟨a, ha, hw⟩ := bind_eq_ok.mp hw
          exact ⟨(length_of_setBit hw).1, a, ha⟩) hd).2 i (Nat.zero_le i) (by omega)
      by_contra hge
      rw [arrayAref, List.getElem?_eq_none (by omega)] at hx
      cases hx

end Bits

theorem adjusts_vectorT_iff {s : State Slot Slot} {fresh : ℕ → Slot} {newCapacity : ℕ} {e : Slot}
    (h : s.Sound id) (hfixnum : newCapacity ≤ 2305843009213693951) :
    Adjusts (aref vectorT) s newCapacity e (adjustVector vectorT fresh s newCapacity e) ↔
      Copies s (min s.vector.capacity newCapacity) := by
  have hallocated : newCapacity ≤ vectorT.allocated newCapacity :=
    (le_allocated_vectorT (by omega)).mpr (by omega)
  rw [adjusts_iff (fun _ => rfl) h hallocated]
  exact and_iff_left fun _ => rfl

/-- **`adjust_vector` keeps and fills**, for each class exactly under its condition: the other array
covers what is copied; and where the vector grows, the initial element of a `Vector_UB8` is zero,
and a `BitVector` needs no more words than it has. -/
theorem adjustVector_adjusts_iff (newCapacity : ℕ) :
    (∀ (s : State Slot Slot) fresh e, s.Sound id →
      newCapacity ≤ 2305843009213693951 →
      (Adjusts (aref vectorT) s newCapacity e (adjustVector vectorT fresh s newCapacity e) ↔
        Copies s (min s.vector.capacity newCapacity))) ∧
    (∀ (s : State (BitVec 8) (BitVec 8)) fresh e, s.Sound id →
      (Adjusts (aref vectorUB8) s newCapacity e (adjustVector vectorUB8 fresh s newCapacity e) ↔
        Copies s (min s.vector.capacity newCapacity) ∧
          (s.vector.capacity < newCapacity → e = 0))) ∧
    (∀ (s : BitState) fresh e, s.Sound dataLength →
      (Adjusts bitAref s newCapacity e (bitAdjustVector fresh s newCapacity e) ↔
        Copies s s.vector.capacity ∧
          (s.vector.capacity < newCapacity → dataLength newCapacity ≤ words s))) := by
  refine ⟨fun s fresh e h hfixnum => ?_, fun s fresh e h => ?_,
    fun s fresh e h => bitAdjusts_iff h⟩
  · exact adjusts_vectorT_iff h hfixnum
  · rw [adjusts_iff (fun _ => rfl) h (Nat.le_refl _)]
    exact and_congr_right fun _ => imp_congr_right fun _ => setWidth_makeFixnum e

/-- A `Vector_UB8` of no elements. -/
def emptyBytes : State (BitVec 8) (BitVec 8) := ⟨⟨0, false, 0, .owned []⟩, []⟩

/-- The low byte of the fixnum is stored. -/
theorem not_adjusts_emptyBytes :
    ¬ ∀ (s : State (BitVec 8) (BitVec 8)) fresh newCapacity e, s.Sound id →
      Adjusts (aref vectorUB8) s newCapacity e (adjustVector vectorUB8 fresh s newCapacity e) := by
  intro h
  have hsound : emptyBytes.Sound id :=
    { fillPointer := Nat.le_refl 0
      owned := fun data hdata => Nat.zero_le _
      capacity := by decide
      array := by decide
      offset := fun offset hoffset => by cases hoffset }
  obtain ⟨s', hok, -, -, habove, -⟩ := h emptyBytes (fun _ => 0) 1 1 hsound
  have hrun : adjustVector vectorUB8 (fun _ => 0) emptyBytes 1 1 =
      .ok ⟨⟨1, false, 0, .owned [4]⟩, []⟩ := rfl
  rw [hrun] at hok
  cases hok
  exact absurd (habove 0 (Nat.le_refl 0) Nat.one_pos) (by decide)

end Xcl.Vectors
