import Xcl.Vectors.Copy

/-!
# `vector-push-extend` appends

* `State.Sound`, `State.WellFormed`: what the constructors establish;
* **`appends_iff`**.
-/

namespace Xcl.Vectors

open Loops

variable {δ ε : Type}

structure State.Sound (size : ℕ → ℕ) (s : State δ ε) : Prop where
  fillPointer : s.vector.fillPointer ≤ s.vector.capacity
  owned : ∀ data, s.vector.storage = .owned data → size s.vector.capacity ≤ data.length
  capacity : s.vector.capacity ≤ 2305843009213693951
  array : s.array.length ≤ 2305843009213693951
  offset : ∀ offset, s.vector.storage = .displaced offset → offset ≤ 2305843009213693951

structure State.WellFormed (size : ℕ → ℕ) (s : State δ ε) : Prop extends s.Sound size where
  hasFillPointer : s.vector.hasFillPointer = true

/-- The fill pointer is returned and one larger afterwards, the elements below it are as they were,
the new one is `x`, and the other array is as it was if new storage was taken. -/
def Appends (aref : State δ ε → ℕ → Result ε) (s : State δ ε) (x : ε)
    (result : Result (State δ ε × ℕ)) : Prop :=
  ∃ s', result = .ok (s', s.vector.fillPointer) ∧
    s'.vector.fillPointer = s.vector.fillPointer + 1 ∧
    (∀ i < s.vector.fillPointer, aref s' i = aref s i) ∧
    aref s' s.vector.fillPointer = .ok x ∧
    ((∃ offset, s.vector.storage = .displaced offset) →
      (∃ data, s'.vector.storage = .owned data) → s'.array = s.array)

/-- There is room for the element: below the capacity, or in the storage that is allocated, to
which the elements of the other array have come unchanged. -/
def Room (K : Kind δ ε) (s : State δ ε) (extension : ℕ) : Prop :=
  let f := s.vector.fillPointer
  let capacity := newCapacity s.vector.capacity (f + extension)
  match s.vector.storage with
  | .owned _ => f < s.vector.capacity ∨ capacity + K.spare ≤ K.allocated capacity
  | .displaced offset =>
    if f < s.vector.capacity then f + offset < s.array.length
    else (f = 0 ∨ f + offset ≤ s.array.length) ∧
      (∀ i < f, ∀ a, s.array[i + offset]? = some a → K.load (K.copied a) = a) ∧
      f < K.allocated capacity

variable {K : Kind δ ε} {fresh : ℕ → δ} {s : State δ ε} {x : ε} {extension : ℕ}

theorem lt_newCapacity {capacity n : ℕ} (h : capacity < n) : capacity < newCapacity capacity n := by
  unfold newCapacity
  split_ifs <;> omega

/-! ## Storing the element -/

theorem appends_pushElement_owned {s' : State δ ε} {data : List δ}
    (hload : ∀ x, K.load (K.store x) = x) (hstorage : s'.vector.storage = .owned data)
    (hfill : s'.vector.fillPointer = s.vector.fillPointer)
    (hcapacity : s.vector.fillPointer < s'.vector.capacity)
    (hlength : s.vector.fillPointer < data.length)
    (hbelow : ∀ i < s.vector.fillPointer, K.load <$> read data i = aref K s i)
    (harray : s'.array = s.array) : Appends (aref K) s x (pushElement K s' x) := by
  have hwrite : write data s.vector.fillPointer (K.store x) =
      .ok (data.set s.vector.fillPointer (K.store x)) := write_eq_ok.mpr ⟨hlength, rfl⟩
  refine ⟨⟨{ s'.vector with
    fillPointer := s.vector.fillPointer + 1
    storage := .owned (data.set s.vector.fillPointer (K.store x)) }, s'.array⟩, ?_, rfl, ?_, ?_,
    fun _ _ => harray⟩
  · simp only [pushElement, hfill, if_pos hcapacity, hstorage, hwrite]
    rfl
  · intro i hi
    refine (aref_mk_owned (hi.trans hcapacity)).trans ?_
    rw [← hbelow i hi]
    simp only [read, List.getElem?_set_ne (Nat.ne_of_gt hi)]
  · refine (aref_mk_owned hcapacity).trans ?_
    simp only [read, List.getElem?_set_self hlength, Option.elim_some]
    exact congrArg Except.ok (hload x)

theorem appends_pushElement_displaced {offset : ℕ} (hstorage : s.vector.storage = .displaced offset)
    (hcapacity : s.vector.fillPointer < s.vector.capacity) :
    Appends (aref K) s x (pushElement K s x) ↔ s.vector.fillPointer + offset < s.array.length := by
  constructor
  · rintro ⟨s', h, -⟩
    simp only [pushElement, if_pos hcapacity, hstorage] at h
    obtain ⟨array, harray, -⟩ := bind_eq_ok.mp h
    exact (arrayAset_eq_ok.mp harray).1
  · intro hlt
    obtain ⟨⟨capacity, hasFillPointer, f, storage⟩, array⟩ := s
    obtain rfl : storage = .displaced offset := hstorage
    have haset : arrayAset array (f + offset) x = .ok (array.set (f + offset) x) :=
      arrayAset_eq_ok.mpr ⟨hlt, rfl⟩
    refine ⟨⟨⟨capacity, hasFillPointer, f + 1, .displaced offset⟩, array.set (f + offset) x⟩, ?_,
      rfl, ?_, ?_, ?_⟩
    · simp only [pushElement, if_pos hcapacity, haset]
      rfl
    · intro i hi
      rw [aref_mk_displaced (hi.trans hcapacity), aref_mk_displaced (hi.trans hcapacity)]
      have hne : f + offset ≠ i + offset := Nat.ne_of_gt (Nat.add_lt_add_right hi offset)
      simp only [arrayAref, List.getElem?_set_ne hne]
    · exact (aref_mk_displaced hcapacity).trans
        (arrayAref_eq_ok.mpr (List.getElem?_set_self hlt))
    · rintro - ⟨data, hdata⟩
      cases hdata

/-! ## Owned storage -/

theorem ensureCapacity_owned (K : Kind δ ε) (fresh : ℕ → δ) {data : List δ} {n : ℕ}
    (h : s.WellFormed id) (hstorage : s.vector.storage = .owned data) (hn : s.vector.capacity < n)
    (hroom : newCapacity s.vector.capacity n + K.spare ≤
      K.allocated (newCapacity s.vector.capacity n)) :
    ∃ d, ensureCapacity K fresh s n = .ok { s with vector := { s.vector with
        capacity := newCapacity s.vector.capacity n, storage := .owned d } } ∧
      d.length = K.allocated (newCapacity s.vector.capacity n) ∧
      ∀ i < s.vector.fillPointer, d[i]? = data[i]? := by
  have hlt := lt_newCapacity hn
  have hlimit : s.vector.length = s.vector.fillPointer := by rw [Vec.length, h.hasFillPointer]; rfl
  have hfill := h.fillPointer
  have hdata : s.vector.capacity ≤ data.length := h.owned data hstorage
  generalize hcap : newCapacity s.vector.capacity n = capacity at *
  obtain ⟨d₁, hd₁, hl₁, hi₁⟩ := forLoop_write
    (fun i newData => do write newData i (← read data i)) (fun i => data.getD i K.cleared) 0
    s.vector.fillPointer (malloc fresh (K.allocated capacity)) (fun j d _ hj => by
      have hread : read data j = .ok (data.getD j K.cleared) := by
        rw [read_eq_ok, List.getD_eq_getElem?_getD, List.getElem?_eq_getElem (by omega)]
        rfl
      rw [hread]
      rfl)
    (by rw [length_malloc]; omega)
  obtain ⟨d, hd, hl, hi⟩ := forLoop_write (fun i newData => write newData i K.cleared)
    (fun _ => K.cleared) s.vector.fillPointer (capacity + K.spare - s.vector.fillPointer) d₁
    (fun _ _ _ _ => rfl)
    (by rw [hl₁, length_malloc]; omega)
  refine ⟨d, ?_, by rw [hl, hl₁, length_malloc], fun i hif => ?_⟩
  · simp only [ensureCapacity, hstorage, if_pos hn, hcap, hlimit]
    exact bind_eq_ok.mpr ⟨d₁, hd₁, bind_eq_ok.mpr ⟨d, hd, rfl⟩⟩
  · rw [hi i, if_neg (by omega), hi₁ i, if_pos (by omega), List.getD_eq_getElem?_getD,
      List.getElem?_eq_getElem (by omega)]
    rfl

/-- The rest of a larger storage is cleared, so that all of it has to be there. -/
theorem room_of_ensureCapacity_owned {s' : State δ ε} {data : List δ} {n : ℕ} (h : s.WellFormed id)
    (hstorage : s.vector.storage = .owned data) (hn : s.vector.capacity < n)
    (hok : ensureCapacity K fresh s n = .ok s') :
    newCapacity s.vector.capacity n + K.spare ≤
      K.allocated (newCapacity s.vector.capacity n) := by
  have hlt := lt_newCapacity hn
  have hlimit : s.vector.length = s.vector.fillPointer := by rw [Vec.length, h.hasFillPointer]; rfl
  have hfill := h.fillPointer
  simp only [ensureCapacity, hstorage, if_pos hn, hlimit] at hok
  obtain ⟨d₁, hd₁, hok⟩ := bind_eq_ok.mp hok
  obtain ⟨d, hd, -⟩ := bind_eq_ok.mp hok
  have hl₁ := (forLoop_length (Q := fun j n => j < n ∧ ∃ x, read data j = .ok x)
    (fun _ _ _ => length_of_read_write) hd₁).1
  have hlast := (forLoop_length (Q := fun j n => j < n) (fun _ _ _ => length_of_write) hd).2
    (newCapacity s.vector.capacity n + K.spare - 1) (by omega) (by omega)
  rw [hl₁, length_malloc] at hlast
  omega

/-! ## Displaced storage -/

theorem unsignedSub_of_le {a b : ℕ} (h : b ≤ a) (ha : a ≤ 2305843009213693951) :
    unsignedSub a b = a - b := by
  unfold unsignedSub
  omega

theorem le_unsignedSub_of_lt {a b : ℕ} (h : a < b) (hb : b ≤ 2305843009213693951) :
    4611686018427387904 ≤ unsignedSub a b := by
  unfold unsignedSub
  omega

theorem ensureCapacity_displaced (K : Kind δ ε) (fresh : ℕ → δ) {offset n : ℕ} (h : s.WellFormed id)
    (hstorage : s.vector.storage = .displaced offset) (hn : s.vector.capacity < n)
    (hrest : s.vector.capacity = 0 ∨ s.vector.capacity + offset ≤ s.array.length)
    (hroom : s.vector.capacity ≤ K.allocated (newCapacity s.vector.capacity n)) :
    ∃ d, ensureCapacity K fresh s n = .ok { s with vector := { s.vector with
        capacity := newCapacity s.vector.capacity n, storage := .owned d } } ∧
      d.length = K.allocated (newCapacity s.vector.capacity n) ∧
      ∀ i < s.vector.capacity, ∃ a, s.array[i + offset]? = some a ∧ d[i]? = some (K.copied a) := by
  have hlimit : (if s.vector.capacity > unsignedSub s.array.length offset then
      unsignedSub s.array.length offset else s.vector.capacity) = s.vector.capacity := by
    rcases hrest with hzero | hle
    · rw [hzero, if_neg (Nat.not_lt_zero _)]
    · rw [unsignedSub_of_le (by omega) h.array, if_neg (by omega)]
  have helement : ∀ i < s.vector.capacity, ∃ a, s.array[i + offset]? = some a := fun i hi =>
    ⟨_, List.getElem?_eq_getElem (by omega)⟩
  obtain ⟨d, hd, hl, hi⟩ := forLoop_write
    (fun i data => do write data i (K.copied (← arrayAref s.array (i + offset))))
    (fun i => s.array[i + offset]?.elim K.cleared K.copied) 0 s.vector.capacity
    (malloc fresh (K.allocated (newCapacity s.vector.capacity n))) (fun j d _ hj => by
      obtain ⟨a, ha⟩ := helement j (by omega)
      simp only [arrayAref, ha]
      rfl)
    (by rw [length_malloc]; omega)
  refine ⟨d, ?_, by rw [hl, length_malloc], fun i hic => ?_⟩
  · simp only [ensureCapacity, hstorage, if_pos (Or.inl hn), hlimit]
    exact bind_eq_ok.mpr ⟨d, hd, rfl⟩
  · obtain ⟨a, ha⟩ := helement i hic
    refine ⟨a, ha, ?_⟩
    rw [hi i, if_pos (by omega), ha]
    rfl

theorem ensureCapacity_displaced_eq_ok {s' : State δ ε} {offset n : ℕ} (h : s.WellFormed id)
    (hstorage : s.vector.storage = .displaced offset) (hn : s.vector.capacity < n)
    (hok : ensureCapacity K fresh s n = .ok s') :
    (s.vector.capacity = 0 ∨ offset ≤ s.array.length) ∧
      ∃ d, s' = { s with vector := { s.vector with
        capacity := newCapacity s.vector.capacity n, storage := .owned d } } ∧
      d.length = K.allocated (newCapacity s.vector.capacity n) := by
  have hoffset := h.offset offset hstorage
  have hcapacity := h.capacity
  simp only [ensureCapacity, hstorage, if_pos (Or.inl hn)] at hok
  obtain ⟨d, hd, hok⟩ := bind_eq_ok.mp hok
  cases hok
  obtain ⟨hl, hround⟩ := forLoop_length
    (Q := fun j _ => ∃ a, arrayAref s.array (j + offset) = .ok a) (fun j d d' hw => by
      obtain ⟨a, ha, hw⟩ := bind_eq_ok.mp hw
      exact ⟨(length_of_write hw).1, a, ha⟩) hd
  refine ⟨?_, d, rfl, by rw [hl, length_malloc]⟩
  -- an offset beyond the array makes the rest of the array enormous
  by_contra hno
  rw [not_or, not_le] at hno
  have hrest := le_unsignedSub_of_lt hno.2 hoffset
  obtain ⟨a, ha⟩ := hround 0 (Nat.le_refl 0) (by rw [if_neg (by omega)]; omega)
  rw [arrayAref_eq_ok, List.getElem?_eq_none (by omega)] at ha
  cases ha

/-! ## The two cases of `push_extend` -/

theorem pushExtend_of_lt (h : s.WellFormed id) (hlt : s.vector.fillPointer < s.vector.capacity) :
    pushExtend K fresh s x extension = pushElement K s x := by
  simp only [pushExtend, checkFillPointer, h.hasFillPointer, if_true,
    if_neg (Nat.not_le_of_lt hlt)]
  rfl

theorem pushExtend_of_le (h : s.WellFormed id) (hle : s.vector.capacity ≤ s.vector.fillPointer) :
    pushExtend K fresh s x extension =
      ensureCapacity K fresh s (s.vector.fillPointer + extension) >>= fun s => pushElement K s x :=
        by
  simp only [pushExtend, checkFillPointer, h.hasFillPointer, if_true, if_pos (show
    s.vector.fillPointer ≥ s.vector.capacity from hle)]
  rfl

theorem appends_iff_owned (hload : ∀ x, K.load (K.store x) = x) (h : s.WellFormed id)
    (hextension : 0 < extension) {data : List δ} (hstorage : s.vector.storage = .owned data) :
    Appends (aref K) s x (pushExtend K fresh s x extension) ↔ Room K s extension := by
  have hfill := h.fillPointer
  have hdata : s.vector.capacity ≤ data.length := h.owned data hstorage
  simp only [Room, hstorage]
  by_cases hlt : s.vector.fillPointer < s.vector.capacity
  · rw [pushExtend_of_lt h hlt]
    exact iff_of_true (appends_pushElement_owned hload hstorage rfl hlt (by omega)
      (fun i hi => (aref_owned hstorage (by omega)).symm) rfl) (Or.inl hlt)
  · rw [pushExtend_of_le h (not_lt.mp hlt), or_iff_right hlt]
    have hn : s.vector.capacity < s.vector.fillPointer + extension := by omega
    constructor
    · rintro ⟨s', hok, -⟩
      obtain ⟨s₁, hok, -⟩ := bind_eq_ok.mp hok
      exact room_of_ensureCapacity_owned h hstorage hn hok
    · intro hroom
      obtain ⟨d, hd, hl, hi⟩ := ensureCapacity_owned K fresh h hstorage hn hroom
      have hcapacity := lt_newCapacity hn
      rw [hd]
      refine appends_pushElement_owned hload rfl rfl (by dsimp only; omega) (by omega)
        (fun i hif => ?_) rfl
      rw [aref_owned hstorage (by omega), read, read, hi i hif]

theorem appends_iff_displaced (hload : ∀ x, K.load (K.store x) = x) (h : s.WellFormed id)
    (hextension : 0 < extension) {offset : ℕ} (hstorage : s.vector.storage = .displaced offset) :
    Appends (aref K) s x (pushExtend K fresh s x extension) ↔ Room K s extension := by
  have hfill := h.fillPointer
  simp only [Room, hstorage]
  by_cases hlt : s.vector.fillPointer < s.vector.capacity
  · rw [pushExtend_of_lt h hlt, if_pos hlt]
    exact appends_pushElement_displaced hstorage hlt
  rw [pushExtend_of_le h (not_lt.mp hlt), if_neg hlt]
  have heq : s.vector.capacity = s.vector.fillPointer := by omega
  have hn : s.vector.capacity < s.vector.fillPointer + extension := by omega
  have hcapacity := lt_newCapacity hn
  constructor
  · rintro ⟨s', hok, -, hbelow, -⟩
    obtain ⟨s₁, hs₁, hok⟩ := bind_eq_ok.mp hok
    obtain ⟨hoffset, d, rfl, hl⟩ := ensureCapacity_displaced_eq_ok h hstorage hn hs₁
    simp only [pushElement, if_pos (show s.vector.fillPointer < newCapacity s.vector.capacity
      (s.vector.fillPointer + extension) by omega)] at hok
    obtain ⟨d', hd', hok⟩ := bind_eq_ok.mp hok
    cases hok
    obtain ⟨hlength, rfl⟩ := write_eq_ok.mp hd'
    have hread : ∀ i < s.vector.fillPointer, K.load <$> read d i =
        arrayAref s.array (i + offset) := by
      intro i hi
      rw [← aref_displaced (K := K) hstorage (by omega), ← hbelow i hi]
      refine Eq.trans ?_ (aref_mk_owned (by omega)).symm
      simp only [read, List.getElem?_set_ne (Nat.ne_of_gt hi)]
    have hcovers : s.vector.fillPointer = 0 ∨ s.vector.fillPointer + offset ≤ s.array.length := by
      by_contra hno
      rw [not_or, not_le] at hno
      -- the last element was no element of the array
      have hlast := hread (s.vector.fillPointer - 1) (by omega)
      rw [arrayAref, List.getElem?_eq_none (by omega)] at hlast
      cases hr : read d (s.vector.fillPointer - 1) with
      | ok y =>
        rw [hr] at hlast
        cases hlast
      | error e =>
        rw [hr] at hlast
        cases hlast
        exact read_ne_badIndex hr
    refine ⟨hcovers, fun i hi a ha => ?_, by omega⟩
    obtain ⟨d₁, hd₁, -, hi₁⟩ := ensureCapacity_displaced K fresh h hstorage hn
      (heq ▸ hcovers) (by omega)
    rw [hd₁] at hs₁
    cases hs₁
    obtain ⟨a', ha', hda⟩ := hi₁ i (by omega)
    obtain rfl : a = a' := Option.some.inj (ha.symm.trans ha')
    have hok := hread i hi
    rw [read_eq_ok.mpr hda, arrayAref_eq_ok.mpr ha] at hok
    exact Except.ok.inj hok
  · rintro ⟨hcovers, hcopied, hroom⟩
    obtain ⟨d, hd, hl, hi⟩ := ensureCapacity_displaced K fresh h hstorage hn
      (heq ▸ hcovers) (by omega)
    rw [hd]
    refine appends_pushElement_owned hload rfl rfl (by dsimp only; omega) (by omega)
      (fun i hif => ?_) rfl
    obtain ⟨a, ha, hda⟩ := hi i (by omega)
    rw [aref_displaced hstorage (by omega), read_eq_ok.mpr hda, arrayAref_eq_ok.mpr ha]
    exact congrArg Except.ok (hcopied i hif a ha)

/-- **`push_extend` appends exactly when there is room.** -/
theorem appends_iff (hload : ∀ x, K.load (K.store x) = x) (h : s.WellFormed id)
    (hextension : 0 < extension) :
    Appends (aref K) s x (pushExtend K fresh s x extension) ↔ Room K s extension := by
  cases hstorage : s.vector.storage with
  | owned data => exact appends_iff_owned hload h hextension hstorage
  | displaced offset => exact appends_iff_displaced hload h hextension hstorage

end Xcl.Vectors
