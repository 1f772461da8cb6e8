import Xcl.Vectors.Operations

/-!
# No null in a `Vector_T`

* `Held`: every element below the capacity is a Lisp value;
* `step_held`, **`reachable_held`**.
-/

namespace Xcl.Vectors

open Loops

structure Held (s : VectorT) : Prop where
  fillPointer : s.vector.fillPointer ≤ s.vector.capacity
  capacity : s.vector.capacity ≤ mostPositiveFixnum
  array : s.array.length ≤ mostPositiveFixnum
  offset : ∀ offset, s.vector.storage = .displaced offset → offset ≤ mostPositiveFixnum
  lisp : ∀ i < s.vector.capacity, ∃ x, aref vectorT s i = .ok (slot x)

variable {s s' : VectorT} {data : List Slot} {offset n i : ℕ} {x : LispValue}

/-! ## Elements -/

theorem aref_owned_eq_ok {y : Slot} (h : s.vector.storage = .owned data)
    (hi : i < s.vector.capacity) : aref vectorT s i = .ok y ↔ data[i]? = some y := by
  rw [aref_owned h hi, ← read_eq_ok]
  cases read data i with
  | ok z => exact Iff.rfl
  | error e => exact Iff.rfl

theorem aref_displaced_eq_ok {y : Slot} (h : s.vector.storage = .displaced offset)
    (hi : i < s.vector.capacity) : aref vectorT s i = .ok y ↔ s.array[i + offset]? = some y := by
  rw [aref_displaced h hi, arrayAref_eq_ok]

theorem Held.le_length (h : Held s) (hstorage : s.vector.storage = .owned data) :
    s.vector.capacity ≤ data.length := by
  by_contra hlt
  obtain ⟨x, hx⟩ := h.lisp data.length (by omega)
  rw [aref_owned_eq_ok hstorage (by omega), List.getElem?_eq_none (Nat.le_refl _)] at hx
  cases hx

theorem Held.lt_length (h : Held s) (hstorage : s.vector.storage = .displaced offset)
    (hi : i < s.vector.capacity) : i + offset < s.array.length := by
  obtain ⟨x, hx⟩ := h.lisp i hi
  rw [aref_displaced_eq_ok hstorage hi] at hx
  exact (List.getElem?_eq_some_iff.mp hx).1

theorem Held.sound (h : Held s) : s.Sound id where
  fillPointer := h.fillPointer
  owned := fun _ hstorage => h.le_length hstorage
  capacity := h.capacity
  array := h.array
  offset := h.offset

theorem Held.withFillPointer (h : Held s) (hn : n ≤ s.vector.capacity) :
    Held { s with vector := { s.vector with fillPointer := n } } where
  fillPointer := hn
  capacity := h.capacity
  array := h.array
  offset := h.offset
  lisp := h.lisp

theorem Held.owned_set (h : Held s) (hstorage : s.vector.storage = .owned data) (x : LispValue) :
    Held { s with vector := { s.vector with storage := .owned (data.set n (slot x)) } } where
  fillPointer := h.fillPointer
  capacity := h.capacity
  array := h.array
  offset := fun _ hoffset => by cases hoffset
  lisp := fun i hi => by
    obtain ⟨y, hy⟩ := h.lisp i hi
    rw [aref_owned_eq_ok hstorage hi] at hy
    by_cases hni : n = i
    · refine ⟨x, (aref_owned_eq_ok rfl hi).mpr ?_⟩
      rw [hni, List.getElem?_set_self (List.getElem?_eq_some_iff.mp hy).1]
    · refine ⟨y, (aref_owned_eq_ok rfl hi).mpr ?_⟩
      rw [List.getElem?_set_ne hni, hy]

theorem Held.array_set (h : Held s) (hstorage : s.vector.storage = .displaced offset)
    (x : LispValue) : Held { s with array := s.array.set n (slot x) } where
  fillPointer := h.fillPointer
  capacity := h.capacity
  array := by rw [List.length_set]; exact h.array
  offset := h.offset
  lisp := fun i hi => by
    obtain ⟨y, hy⟩ := h.lisp i hi
    rw [aref_displaced_eq_ok hstorage hi] at hy
    have haref : ∀ y, aref vectorT { s with array := s.array.set n (slot x) } i = .ok y ↔
        (s.array.set n (slot x))[i + offset]? = some y := fun y =>
      aref_displaced_eq_ok (s := { s with array := s.array.set n (slot x) }) hstorage hi
    by_cases hni : n = i + offset
    · refine ⟨x, (haref _).mpr ?_⟩
      rw [hni, List.getElem?_set_self (List.getElem?_eq_some_iff.mp hy).1]
    · refine ⟨y, (haref _).mpr ?_⟩
      rw [List.getElem?_set_ne hni, hy]

/-! ## Computations -/

/-- The computation does not access memory outside of the storage, and it leaves a vector whose
elements are Lisp values, also where it is stopped. -/
def Keeps {α : Type} (m : Op α) (s : VectorT) : Prop :=
  match m s with
  | .ok _ s' => Held s'
  | .error e s' => e ≠ .outside ∧ Held s'

theorem keeps_bind {α β : Type} {m : Op α} {f : α → Op β} (h : Keeps m s)
    (hf : ∀ a s', m s = .ok a s' → Held s' → Keeps (f a) s') : Keeps (m >>= f) s := by
  unfold Keeps at h ⊢
  change match EStateM.bind m f s with
    | .ok _ s' => Held s'
    | .error e s' => e ≠ .outside ∧ Held s'
  unfold EStateM.bind
  cases hm : m s with
  | ok a s' =>
    rw [hm] at h
    exact hf a s' hm h
  | error e s' =>
    rw [hm] at h
    exact h

theorem keeps_throw {α : Type} {e : Stop} (h : Held s) (he : e ≠ .outside) :
    Keeps (throw e : Op α) s := ⟨he, h⟩

theorem keeps_ofResult {α : Type} {y : Result α} (h : Held s) (hy : y ≠ .error .outside) :
    Keeps (ofResult y) s := by
  cases y with
  | ok a => exact h
  | error e => exact ⟨fun he => hy (congrArg Except.error he), h⟩

theorem keeps_ended {f : VectorT → Result VectorT} {left : VectorT → VectorT}
    (heq : f s = .ok s') (hs' : Held s') : Keeps (leaving f left) s := by
  unfold Keeps leaving
  rw [heq]
  exact hs'

theorem keeps_stopped {f : VectorT → Result VectorT} {left : VectorT → VectorT} {e : Stop}
    (h : Held (left s)) (heq : f s = .error e) (he : e ≠ .outside) : Keeps (leaving f left) s := by
  unfold Keeps leaving
  rw [heq]
  exact ⟨he, h⟩

theorem keeps_checked {f : VectorT → Result VectorT} {c : Result Unit} (h : Held s)
    (heq : f s = c >>= fun _ => .ok s') (hc : c ≠ .error .outside) (hs' : Held s') :
    Keeps (unlessStopped f) s := by
  cases c with
  | ok _ => exact keeps_ended heq hs'
  | error e => exact keeps_stopped h heq fun he => hc (congrArg Except.error he)

/-! ## The operations -/

theorem checkFillPointer_ne_outside (v : Vec Slot) : checkFillPointer v ≠ .error .outside := by
  unfold checkFillPointer
  split_ifs <;> exact fun h => by cases h

theorem pushElement_held (h : Held s) (hlt : s.vector.fillPointer < s.vector.capacity)
    (x : LispValue) :
    ∃ s', pushElement vectorT s (slot x) = .ok (s', s.vector.fillPointer) ∧ Held s' := by
  cases hstorage : s.vector.storage with
  | owned data =>
    have hlength := h.le_length hstorage
    have hwrite : write data s.vector.fillPointer (slot x) =
        .ok (data.set s.vector.fillPointer (slot x)) := write_eq_ok.mpr ⟨by omega, rfl⟩
    refine ⟨_, ?_, (h.owned_set (n := s.vector.fillPointer) hstorage x).withFillPointer hlt⟩
    simp only [pushElement, if_pos hlt, hstorage]
    exact bind_eq_ok.mpr ⟨_, hwrite, rfl⟩
  | displaced offset =>
    have haset : arrayAset s.array (s.vector.fillPointer + offset) (slot x) =
        .ok (s.array.set (s.vector.fillPointer + offset) (slot x)) :=
      arrayAset_eq_ok.mpr ⟨h.lt_length hstorage hlt, rfl⟩
    refine ⟨_, ?_,
      (h.array_set (n := s.vector.fillPointer + offset) hstorage x).withFillPointer hlt⟩
    simp only [pushElement, if_pos hlt, hstorage]
    exact bind_eq_ok.mpr ⟨_, haset, rfl⟩

theorem keeps_push (h : Held s) (x : LispValue) : Keeps (unlessStopped (push x)) s := by
  by_cases hlt : s.vector.fillPointer < s.vector.capacity
  · obtain ⟨s', hs', hheld⟩ := pushElement_held h hlt x
    refine keeps_checked h ?_ (checkFillPointer_ne_outside s.vector) hheld
    simp only [push, if_pos hlt, hs']
    rfl
  · refine keeps_checked h ?_ (checkFillPointer_ne_outside s.vector) h
    simp only [push, if_neg hlt]
    rfl

theorem setLength_eq (n : ℕ) (s : VectorT) : setLength n s = checkFillPointer s.vector >>= fun _ =>
    .ok { s with vector := { s.vector with fillPointer := n } } := by
  unfold setLength checkFillPointer
  split_ifs <;> rfl

theorem keeps_checkedLength (h : Held s) (n : ℕ) :
    Keeps (unlessStopped fun s => do checkIndex n s.vector.capacity; setLength n s) s := by
  by_cases hn : s.vector.capacity < n
  · refine keeps_stopped h (e := .badIndex) ?_ fun he => by cases he
    simp only [checkIndex, if_pos hn]
    rfl
  · refine keeps_checked h ?_ (checkFillPointer_ne_outside s.vector)
      (h.withFillPointer (not_lt.mp hn))
    simp only [checkIndex, if_neg hn]
    exact setLength_eq n s

theorem keeps_setFillPointerTo (h : Held s) (fillPointer : FillPointer) :
    Keeps (unlessStopped (setFillPointerTo fillPointer)) s := by
  cases fillPointer with
  | none => exact keeps_ended rfl h
  | capacity =>
    exact keeps_checked h (setLength_eq _ s) (checkFillPointer_ne_outside s.vector)
      (h.withFillPointer (Nat.le_refl _))
  | index n => exact keeps_checkedLength h n

theorem keeps_setFillPointer (h : Held s) (n : ℕ) :
    Keeps (unlessStopped (setFillPointer n)) s := by
  by_cases hfill : s.vector.hasFillPointer = true
  · have heq : Keeps (unlessStopped (setFillPointer n)) s ↔
        Keeps (unlessStopped fun s => do checkIndex n s.vector.capacity; setLength n s) s := by
      unfold Keeps unlessStopped leaving setFillPointer
      rw [if_pos hfill]
    exact heq.mpr (keeps_checkedLength h n)
  · refine keeps_stopped h (e := .noFillPointer) ?_ fun he => by cases he
    rw [setFillPointer, if_neg hfill]
    rfl

theorem keeps_aset (h : Held s) (i : ℕ) (x : LispValue) : Keeps (unlessStopped (aset i x)) s := by
  by_cases hi : s.vector.capacity ≤ i
  · refine keeps_stopped h (e := .badIndex) ?_ fun he => by cases he
    rw [aset, if_pos hi]
    rfl
  cases hstorage : s.vector.storage with
  | owned data =>
    have hlength := h.le_length hstorage
    have hwrite : write data i (slot x) = .ok (data.set i (slot x)) :=
      write_eq_ok.mpr ⟨by omega, rfl⟩
    refine keeps_ended ?_ (h.owned_set (n := i) hstorage x)
    simp only [aset, if_neg hi, hstorage, hwrite]
    rfl
  | displaced offset =>
    have haset : arrayAset s.array (i + offset) (slot x) =
        .ok (s.array.set (i + offset) (slot x)) :=
      arrayAset_eq_ok.mpr ⟨h.lt_length hstorage (not_le.mp hi), rfl⟩
    refine keeps_ended ?_ (h.array_set (n := i + offset) hstorage x)
    simp only [aset, if_neg hi, hstorage, haset]
    rfl

theorem read_eq_ok_of_lt (h : i < data.length) : ∃ y, read data i = .ok y :=
  ⟨_, read_eq_ok.mpr (List.getElem?_eq_getElem h)⟩

theorem arrayAref_ne_outside {α : Type} {array : List α} : arrayAref array i ≠ .error .outside := by
  unfold arrayAref
  cases array[i]? with
  | none => exact fun h => by cases h
  | some y => exact fun h => by cases h

theorem keeps_pop (h : Held s) : Keeps pop s := by
  refine keeps_bind (m := get) h fun a s' ha hs' => ?_
  cases ha
  refine keeps_bind (keeps_ofResult h (checkFillPointer_ne_outside s.vector)) fun _ s' hs _ => ?_
  obtain rfl : s = s' := by
    unfold checkFillPointer ofResult at hs
    split_ifs at hs
    cases hs
    rfl
  have hfill := h.fillPointer
  by_cases hpos : s.vector.fillPointer > 0
  · rw [if_pos hpos]
    have hheld : Held { s with vector := { s.vector with
        fillPointer := s.vector.fillPointer - 1 } } := h.withFillPointer (by omega)
    refine keeps_bind (m := set _) hheld fun _ s' hs _ => ?_
    cases hs
    cases hstorage : s.vector.storage with
    | owned data =>
      have hlength := h.le_length hstorage
      refine keeps_ofResult hheld fun hout => ?_
      obtain ⟨y, hy⟩ : ∃ y, read data (s.vector.fillPointer - 1) = .ok y :=
        read_eq_ok_of_lt (by omega)
      cases hy.symm.trans hout
    | displaced offset => exact keeps_ofResult hheld arrayAref_ne_outside
  · rw [if_neg hpos]
    exact keeps_throw h fun he => by cases he

/-! ## Growth by one element -/

theorem Extension.size_pos (extension : Extension) (capacity : ℕ) : 0 < extension.size capacity :=
    by
  cases extension with
  | compiled =>
    simp only [Extension.size]
    split_ifs <;> omega
  | given n =>
    simp only [Extension.size]
    split_ifs <;> omega
  | one => exact Nat.one_pos

theorem newCapacity_le_of_one {capacity n : ℕ} (h : newCapacity capacity n = capacity + 1) :
    capacity ≤ 1 := by
  unfold newCapacity at h
  split_ifs at h <;> omega

theorem pushElement_grown (h : Held s) (hfull : s.vector.fillPointer = s.vector.capacity)
    (hcapacity : s.vector.capacity < mostPositiveFixnum) (hlength : s.vector.capacity < data.length)
    (hdata : ∀ i < s.vector.capacity, ∃ y, data[i]? = some (slot y)) (x : LispValue) :
    ∃ s', pushElement vectorT { s with vector := { s.vector with
        capacity := s.vector.fillPointer + 1, storage := .owned data } } (slot x) =
      .ok (s', s.vector.fillPointer) ∧ Held s' := by
  have hwrite : write data s.vector.fillPointer (slot x) =
      .ok (data.set s.vector.fillPointer (slot x)) := write_eq_ok.mpr ⟨by omega, rfl⟩
  refine ⟨⟨⟨s.vector.fillPointer + 1, s.vector.hasFillPointer, s.vector.fillPointer + 1,
    .owned (data.set s.vector.fillPointer (slot x))⟩, s.array⟩, ?_, ?_⟩
  · simp only [pushElement, if_pos (Nat.lt_succ_self s.vector.fillPointer)]
    exact bind_eq_ok.mpr ⟨_, hwrite, rfl⟩
  · refine ⟨by dsimp only; omega, by dsimp only; omega, h.array, fun _ hoffset => (by cases
      hoffset),
      fun i hi => ?_⟩
    by_cases hif : s.vector.fillPointer = i
    · refine ⟨x, (aref_owned_eq_ok rfl hi).mpr ?_⟩
      rw [hif, List.getElem?_set_self (by omega)]
    · have hi : i < s.vector.fillPointer + 1 := hi
      obtain ⟨y, hy⟩ := hdata i (by omega)
      refine ⟨y, (aref_owned_eq_ok rfl hi).mpr ?_⟩
      rw [List.getElem?_set_ne hif, hy]

theorem pushExtend_held (h : Held s) (hfill : s.vector.hasFillPointer = true)
    (hfull : s.vector.capacity ≤ s.vector.fillPointer) (fresh : ℕ → Slot) {extension : ℕ}
    (hone : newCapacity s.vector.capacity (s.vector.fillPointer + extension) =
      s.vector.fillPointer + 1) (hpos : 0 < extension) (x : LispValue) :
    ∃ s', pushExtend vectorT fresh s (slot x) extension = .ok (s', s.vector.fillPointer) ∧
      Held s' := by
  have heq : s.vector.fillPointer = s.vector.capacity := Nat.le_antisymm h.fillPointer hfull
  have hwell : s.WellFormed id := { h.sound with hasFillPointer := hfill }
  have hcapacity := newCapacity_le_of_one (hone.trans (by rw [heq]))
  have hallocated : s.vector.fillPointer + 1 ≤ vectorT.allocated (s.vector.fillPointer + 1) :=
    (le_allocated_vectorT (by omega)).mpr (by omega)
  rw [pushExtend_of_le hwell hfull]
  cases hstorage : s.vector.storage with
  | owned data =>
    obtain ⟨d, hd, hl, hi⟩ := ensureCapacity_owned vectorT fresh hwell hstorage
      (n := s.vector.fillPointer + extension) (by omega) (by rw [hone]; exact hallocated)
    rw [hone] at hl hd
    have hlength : s.vector.capacity < d.length := by omega
    rw [hd]
    refine pushElement_grown h heq (by unfold mostPositiveFixnum; omega) hlength
      (fun i hic => ?_) x
    obtain ⟨y, hy⟩ := h.lisp i hic
    exact ⟨y, (hi i (by omega)).trans ((aref_owned_eq_ok hstorage hic).mp hy)⟩
  | displaced offset =>
    have hcovers : s.vector.capacity = 0 ∨ s.vector.capacity + offset ≤ s.array.length := by
      by_contra hno
      have hlast := h.lt_length hstorage (i := s.vector.capacity - 1) (by omega)
      omega
    obtain ⟨d, hd, hl, hi⟩ := ensureCapacity_displaced vectorT fresh hwell hstorage
      (n := s.vector.fillPointer + extension) (by omega) hcovers (by rw [hone]; omega)
    rw [hone] at hl hd
    have hlength : s.vector.capacity < d.length := by omega
    rw [hd]
    refine pushElement_grown h heq (by unfold mostPositiveFixnum; omega) hlength
      (fun i hic => ?_) x
    obtain ⟨y, hy⟩ := h.lisp i hic
    obtain ⟨a, ha, hda⟩ := hi i hic
    rw [aref_displaced_eq_ok hstorage hic, ha] at hy
    exact ⟨y, hda.trans hy⟩

/-! ## Adjustment -/

theorem keeps_vectorPushExtend (h : Held s) (x : LispValue) (extension : Extension)
    (hone : s.vector.hasFillPointer = true → s.vector.capacity ≤ s.vector.fillPointer →
      newCapacity s.vector.capacity (s.vector.fillPointer + extension.size s.vector.capacity) =
        s.vector.fillPointer + 1) : Keeps (vectorPushExtend x extension) s := by
  by_cases hfill : s.vector.hasFillPointer = true
  · have hpush : ∃ s', pushExtend vectorT (fun _ => none) s (slot x)
        (extension.size s.vector.capacity) = .ok (s', s.vector.fillPointer) ∧ Held s' := by
      rcases Nat.lt_or_ge s.vector.fillPointer s.vector.capacity with hlt | hfull
      · rw [pushExtend_of_lt { h.sound with hasFillPointer := hfill } hlt]
        exact pushElement_held h hlt x
      · exact pushExtend_held h hfill hfull _ (hone hfill hfull) (extension.size_pos _) x
    obtain ⟨s', hs', hheld⟩ := hpush
    refine keeps_ended ?_ hheld
    rw [hs']
    rfl
  · have hstop : pushExtend vectorT (fun _ => none) s (slot x)
        (extension.size s.vector.capacity) = .error .noFillPointer := by
      simp only [pushExtend, checkFillPointer, if_neg hfill]
      rfl
    refine keeps_stopped (e := .noFillPointer) ?_ ?_ fun he => by cases he
    · rw [if_neg fun hfull => hfill hfull.1]
      exact h
    · rw [hstop]
      rfl

theorem held_adjustedState (h : Held s) (hn : n ≤ mostPositiveFixnum)
    (hdata : ∀ i < n, ∃ x, data[i]? = some (slot x)) : Held (adjustedState s n data) where
  fillPointer := fillPointer_adjustedState s n data
  capacity := hn
  array := h.array
  offset := fun _ hoffset => by cases hoffset
  lisp := fun i hi => by
    obtain ⟨x, hx⟩ := hdata i hi
    exact ⟨x, (aref_owned_eq_ok rfl hi).mpr hx⟩

theorem allocated_vectorT (hn : n ≤ mostPositiveFixnum) : vectorT.allocated n = n := by
  unfold mostPositiveFixnum at hn
  simp only [vectorT]
  omega

theorem length_newStorage (hn : n ≤ mostPositiveFixnum) : (newStorage n).length = n := by
  rw [newStorage, length_malloc, allocated_vectorT hn]

theorem contents_loop (nil : LispValue) (contents : Contents) (hn : n ≤ data.length) :
    (∃ d, forLoop (fun i data => do write data i (slot (← contents.get nil i))) n 0 data = .ok d ∧
      ∀ i < n, ∃ x, d[i]? = some (slot x)) ∨
    ∃ e, forLoop (fun i data => do write data i (slot (← contents.get nil i))) n 0 data =
      .error e ∧ e ≠ .outside := by
  by_cases helements : ∀ i < n, ∃ x, contents.get nil i = .ok x
  · have : Nonempty LispValue := ⟨nil⟩
    choose! a ha using helements
    obtain ⟨d, hd, -, hi⟩ := forLoop_write
      (fun i data => do write data i (slot (← contents.get nil i))) (fun i => slot (a i)) 0 n data
      (fun j d _ hj => by rw [ha j (by omega)]; rfl) (by omega)
    refine Or.inl ⟨d, hd, fun i hin => ⟨a i, ?_⟩⟩
    rw [hi i, if_pos (by omega)]
  · have hget : ∀ i, contents.get nil i ≠ .error .outside := fun i => by
      cases contents with
      | list values => exact fun h => by cases h
      | vector values => exact arrayAref_ne_outside
    have hround : ∀ (j : ℕ) (d d' : List Slot),
        (do write d j (slot (← contents.get nil j))) = Except.ok d' →
        d'.length = d.length ∧ ∃ x, contents.get nil j = .ok x := fun j d d' hw => by
      obtain ⟨x, hx, hw⟩ := bind_eq_ok.mp hw
      exact ⟨(length_of_write hw).1, x, hx⟩
    refine Or.inr ?_
    cases hloop : forLoop (fun i data => do write data i (slot (← contents.get nil i))) n 0 data
      with
    | ok d =>
      exact absurd (fun i hi => ((forLoop_length (Q := fun j _ => ∃ x, contents.get nil j = .ok x)
        hround hloop).2 i (Nat.zero_le i) (by omega))) helements
    | error e =>
      refine ⟨e, rfl, fun he => ?_⟩
      obtain ⟨j, d, -, hj, hd, hstop⟩ := forLoop_error (P := fun d => d.length = data.length) rfl
        (fun j d d' hd hw => (hround j d d' hw).1.trans hd) hloop
      subst he
      cases hx : contents.get nil j with
      | ok x =>
        have hwrite : write d j (slot x) = .ok (d.set j (slot x)) :=
          write_eq_ok.mpr ⟨by omega, rfl⟩
        rw [hx] at hstop
        cases hwrite.symm.trans hstop
      | error e =>
        rw [hx] at hstop
        cases hstop
        exact hget j hx

theorem keeps_adjustVectorT (h : Held s) (nil : LispValue) (hn : n ≤ mostPositiveFixnum)
    (x : LispValue) (contents : Contents) : Keeps (adjustVectorT nil n x contents) s := by
  unfold adjustVectorT
  by_cases hnil : contents.isNil = true
  · rw [if_pos hnil]
    have hcopies : Copies s (min s.vector.capacity n) := fun offset hoffset i hi =>
      h.lt_length hoffset (lt_min_iff.mp hi).1
    have hadjusts : Adjusts (aref vectorT) s n (slot x)
        (adjustVector vectorT (fun _ => none) s n (slot x)) :=
      (adjusts_vectorT_iff h.sound hn).mpr hcopies
    obtain ⟨s', hs', -, hbelow, habove, -⟩ := hadjusts
    refine keeps_ended hs' ?_
    obtain ⟨d, rfl⟩ := adjustVector_eq_ok hs'
    refine held_adjustedState h hn fun i hi => ?_
    rcases Nat.lt_or_ge i s.vector.capacity with hic | hic
    · obtain ⟨y, hy⟩ := h.lisp i hic
      exact ⟨y, (aref_owned_eq_ok rfl hi).mp ((hbelow i hic hi).trans hy)⟩
    · exact ⟨x, (aref_owned_eq_ok rfl hi).mp (habove i hic hi)⟩
  · rw [if_neg hnil]
    rcases contents_loop nil contents (length_newStorage hn).ge with ⟨d, hd, hi⟩ | ⟨e, hloop, he⟩
    · refine keeps_ended ?_ (held_adjustedState h hn hi)
      rw [hd]
      rfl
    · refine keeps_stopped h (e := e) ?_ he
      rw [hloop]
      rfl

theorem checkIndex_eq_ok {max : ℕ} : checkIndex n max = .ok () ↔ n ≤ max := by
  unfold checkIndex
  split_ifs with hlt
  · exact iff_of_false (fun h => by cases h) (not_le.mpr hlt)
  · exact iff_of_true rfl (not_lt.mp hlt)

theorem keeps_checkIndex {α : Type} {f : Op α} {max : ℕ} (h : Held s)
    (hf : n ≤ max → Keeps f s) : Keeps (do ofResult (checkIndex n max); f) s := by
  by_cases hn : n ≤ max
  · refine keeps_bind ?_ fun a s' hm hs' => ?_
    · rw [checkIndex_eq_ok.mpr hn]
      exact h
    · rw [checkIndex_eq_ok.mpr hn] at hm
      cases hm
      exact hf hn
  · unfold checkIndex
    rw [if_pos (not_le.mp hn)]
    exact ⟨fun he => (by cases he), h⟩

theorem held_displaced {v : Vec Slot} {array : LispArray} (hfill : v.fillPointer ≤ v.capacity)
    (hcapacity : v.capacity ≤ mostPositiveFixnum) (hoffset : offset ≤ mostPositiveFixnum)
    (hstorage : v.storage = .displaced offset)
    (hcovers : ∀ i < v.capacity, i + offset < array.1.length) : Held ⟨v, array.slots⟩ where
  fillPointer := hfill
  capacity := hcapacity
  array := (List.length_map _).trans_le array.2
  offset := fun _ h => by
    cases hstorage.symm.trans h
    exact hoffset
  lisp := fun i hi => by
    refine ⟨array.1.get ⟨i + offset, hcovers i hi⟩,
      (aref_displaced_eq_ok (s := ⟨v, array.slots⟩) hstorage hi).mpr ?_⟩
    rw [LispArray.slots, List.getElem?_map, List.getElem?_eq_getElem (hcovers i hi)]
    rfl

/-! ## Runs -/

/-- A new vector lies within the array that it is displaced to. -/
def Making.Fits : Making → Prop
  | .owned .. => True
  | .displaced size _ array offset => ∀ i < size, i + offset < array.1.length

/-- A full vector grows by one element only, and a displaced vector lies within the array. -/
def Allowed (s : VectorT) : Operation → Prop
  | .pushExtend _ extension =>
    s.vector.hasFillPointer = true → s.vector.capacity ≤ s.vector.fillPointer →
      newCapacity s.vector.capacity (s.vector.fillPointer + extension.size s.vector.capacity) =
        s.vector.fillPointer + 1
  | .displace newSize array offset _ => ∀ i < newSize, i + offset < array.1.length
  | .elsewhere array => ∀ offset, s.vector.storage = .displaced offset →
    ∀ i < s.vector.capacity, i + offset < array.1.length
  | _ => True

inductive Reachable (nil : LispValue) (fits : Making → Prop)
    (allowed : VectorT → Operation → Prop) : VectorT → Prop
  | make {m s} : fits m → m.make nil = .ok s → Reachable nil fits allowed s
  | step {s op s'} : Reachable nil fits allowed s → allowed s op → step nil s op = some s' →
    Reachable nil fits allowed s'

theorem newVector_held {fillPointer : FillPointer} {storage : Storage Slot} {v : Vec Slot}
    (h : newVector n fillPointer storage = .ok v) :
    v.fillPointer ≤ n ∧ v.capacity = n ∧ v.storage = storage := by
  cases fillPointer with
  | none =>
    cases h
    exact ⟨Nat.zero_le n, rfl, rfl⟩
  | capacity =>
    cases h
    exact ⟨Nat.le_refl n, rfl, rfl⟩
  | index m =>
    obtain ⟨_, hm, h⟩ := bind_eq_ok.mp h
    cases h
    exact ⟨checkIndex_eq_ok.mp hm, rfl, rfl⟩

theorem setFillPointerTo_held (h : Held s) {fillPointer : FillPointer}
    (hs' : setFillPointerTo fillPointer s = .ok s') : Held s' := by
  have hkeeps := keeps_setFillPointerTo h fillPointer
  unfold Keeps unlessStopped leaving at hkeeps
  rw [hs'] at hkeeps
  exact hkeeps

theorem keeps_displaceVector {array : LispArray} (hn : n ≤ mostPositiveFixnum)
    (hoffset : offset ≤ mostPositiveFixnum) (hcovers : ∀ i < n, i + offset < array.1.length) :
    Keeps (modify (displaceVector n array offset)) s := by
  refine held_displaced ?_ hn hoffset rfl hcovers
  dsimp only [displaceVector]
  split_ifs <;> omega

theorem keeps_elsewhere (h : Held s) {array : LispArray}
    (hcovers : ∀ offset, s.vector.storage = .displaced offset →
      ∀ i < s.vector.capacity, i + offset < array.1.length) :
    Keeps (modify fun s => { s with array := array.slots }) s := by
  cases hstorage : s.vector.storage with
  | owned data =>
    refine ⟨h.fillPointer, h.capacity, (List.length_map _).trans_le array.2, h.offset,
      fun i hi => ?_⟩
    obtain ⟨x, hx⟩ := h.lisp i hi
    exact ⟨x, (aref_owned_eq_ok (s := { s with array := array.slots }) hstorage hi).mpr
      ((aref_owned_eq_ok hstorage hi).mp hx)⟩
  | displaced offset =>
    exact held_displaced h.fillPointer h.capacity (h.offset offset hstorage) hstorage
      (hcovers offset hstorage)

theorem keeps_perform (h : Held s) (nil : LispValue) {op : Operation} (hop : Allowed s op) :
    Keeps (perform nil op) s := by
  cases op with
  | push x => exact keeps_push h x
  | pushExtend x extension => exact keeps_vectorPushExtend h x extension hop
  | pop => exact keeps_bind (keeps_pop h) fun _ _ _ hs' => hs'
  | setFillPointer n => exact keeps_setFillPointer h n
  | aset i x => exact keeps_aset h i x
  | adjust newSize initialElement initialContents fillPointer =>
    simp only [perform]
    split_ifs with hboth
    · exact keeps_throw h fun he => by cases he
    · exact keeps_checkIndex h fun hn => keeps_bind (keeps_adjustVectorT h nil hn _ _)
        fun _ _ _ hs' => keeps_setFillPointerTo hs' fillPointer
  | displace newSize array offset fillPointer =>
    exact keeps_checkIndex h fun hn => keeps_checkIndex h fun hoffset =>
      keeps_bind (keeps_displaceVector hn hoffset hop)
        fun _ _ _ hs' => keeps_setFillPointerTo hs' fillPointer
  | elsewhere array => exact keeps_elsewhere h hop

theorem step_held (h : Held s) (nil : LispValue) {op : Operation} (hop : Allowed s op) :
    ∃ s', step nil s op = some s' ∧ Held s' := by
  have hkeeps := keeps_perform h nil hop
  unfold Keeps at hkeeps
  unfold step
  cases hs' : perform nil op s with
  | ok _ s' =>
    rw [hs'] at hkeeps
    exact ⟨s', rfl, hkeeps⟩
  | error e s' =>
    rw [hs'] at hkeeps
    cases e with
    | outside => exact absurd rfl hkeeps.1
    | _ => exact ⟨s', rfl, hkeeps.2⟩

theorem fill_loop (x : LispValue) {data' : List Slot} (hn : n ≤ data.length)
    (h : forLoop (fun i data => write data i (slot x)) n 0 data = .ok data') :
    data'.length = data.length ∧ ∀ i < n, ∃ x, data'[i]? = some (slot x) := by
  obtain ⟨d, hd, hl, hi⟩ := forLoop_write (fun i data => write data i (slot x)) (fun _ => slot x) 0
    n data (fun _ _ _ _ => rfl) (by omega)
  obtain rfl := Except.ok.inj (hd.symm.trans h)
  refine ⟨hl, fun i hin => ⟨x, ?_⟩⟩
  rw [hi i, if_pos (by omega)]

theorem initialData_lisp {nil : LispValue} {initialElement : Option LispValue}
    {initialContents : Contents} (hn : n ≤ mostPositiveFixnum)
    (h : initialData nil n initialElement initialContents = .ok data) :
    ∀ i < n, ∃ x, data[i]? = some (slot x) := by
  obtain ⟨d, hd, h⟩ := bind_eq_ok.mp h
  obtain ⟨hlength, hnil⟩ := fill_loop nil (length_newStorage hn).ge hd
  have hn : n ≤ d.length := by rw [hlength, length_newStorage hn]
  cases initialElement with
  | some x => exact (fill_loop x hn h).2
  | none =>
    dsimp only at h
    split_ifs at h
    · cases h
      exact hnil
    · rcases contents_loop nil initialContents hn with ⟨d', hd', hi⟩ | ⟨e, hstop, -⟩
      · obtain rfl := Except.ok.inj (hd'.symm.trans h)
        exact hi
      · cases hstop.symm.trans h

theorem make_held (nil : LispValue) {m : Making} (hm : m.Fits) (hs : m.make nil = .ok s) :
    Held s := by
  cases m with
  | owned size fillPointer initialElement initialContents =>
    simp only [Making.make] at hs
    split_ifs at hs with hboth hlimit
    obtain ⟨d, hd, hs⟩ := bind_eq_ok.mp hs
    obtain ⟨v, hv, hset⟩ := bind_eq_ok.mp hs
    have hsize : size ≤ mostPositiveFixnum := Nat.le_of_lt (not_le.mp hlimit)
    have hdata := initialData_lisp hsize hd
    obtain ⟨hfill, rfl, hstorage⟩ := newVector_held hv
    have hheld : Held ⟨v, []⟩ := by
      refine ⟨hfill, hsize, Nat.zero_le _, fun _ hoffset => ?_, fun i hi => ?_⟩
      · cases hstorage.symm.trans hoffset
      · obtain ⟨x, hx⟩ := hdata i hi
        exact ⟨x, (aref_owned_eq_ok (s := ⟨v, []⟩) hstorage hi).mpr hx⟩
    exact setFillPointerTo_held hheld hset
  | displaced size fillPointer array offset =>
    obtain ⟨_, hsize, hs⟩ := bind_eq_ok.mp hs
    obtain ⟨_, hoffset, hs⟩ := bind_eq_ok.mp hs
    obtain ⟨v, hv, hs⟩ := bind_eq_ok.mp hs
    cases hs
    obtain ⟨hfill, rfl, hstorage⟩ := newVector_held hv
    exact held_displaced hfill (checkIndex_eq_ok.mp hsize) (checkIndex_eq_ok.mp hoffset) hstorage hm

theorem reachable_held {nil : LispValue} (h : Reachable nil Making.Fits Allowed s) : Held s := by
  induction h with
  | make hm hs => exact make_held _ hm hs
  | step _ hop hs' ih =>
    obtain ⟨s'', hs'', hheld⟩ := step_held ih _ hop
    obtain rfl := Option.some.inj (hs'.symm.trans hs'')
    exact hheld

/-- **No null in a `Vector_T`**: in every run whose vectors lie within the arrays that they are
displaced to, and where a full vector grows by one element only, every element below the capacity is
a Lisp value, and the next step stays within the allocated storage. -/
theorem reachable_lisp {nil : LispValue} (h : Reachable nil Making.Fits Allowed s) :
    (∀ i < s.vector.capacity, ∃ x : LispValue, aref vectorT s i = .ok (slot x)) ∧
      ∀ op, Allowed s op → ∃ s', step nil s op = some s' :=
  ⟨(reachable_held h).lisp, fun _ hop =>
    (step_held (reachable_held h) nil hop).imp fun _ hs' => hs'.1⟩

/-- A word with the tag of a list. -/
def nilWord : LispValue := ⟨1, by decide⟩

/-- `(make-array 1 :fill-pointer t)` -/
def fullVector : Making := .owned 1 .capacity none (.list [])

/-- It grows by one element. -/
def grownByOne : VectorT := ⟨⟨2, true, 2, .owned [some 1, some 0]⟩, []⟩

theorem reachable_grownByOne : Reachable nilWord Making.Fits Allowed grownByOne := by
  have hmake : Reachable nilWord Making.Fits Allowed ⟨⟨1, true, 1, .owned [some 1]⟩, []⟩ :=
    Reachable.make (m := fullVector) trivial rfl
  have hop : Allowed ⟨⟨1, true, 1, .owned [some 1]⟩, []⟩ (.pushExtend ⟨0, by decide⟩ .one) :=
    fun _ _ => rfl
  exact Reachable.step hmake hop rfl

theorem reachable_lisp_grownByOne :
    (∀ i < 2, ∃ x : LispValue, aref vectorT grownByOne i = .ok (slot x)) ∧
      ∀ op, Allowed grownByOne op → ∃ s', step nilWord grownByOne op = some s' :=
  reachable_lisp reachable_grownByOne

/-- Growth by two elements leaves a null after the one that is pushed. -/
theorem not_reachable_lisp :
    ¬ ∀ nil s, Reachable nil Making.Fits (fun _ _ => True) s →
      ∀ i < s.vector.capacity, ∃ x : LispValue, aref vectorT s i = .ok (slot x) := by
  intro h
  have hmake : Reachable nilWord Making.Fits (fun _ _ => True)
      ⟨⟨1, true, 1, .owned [some 1]⟩, []⟩ := Reachable.make (m := fullVector) trivial rfl
  have hstep : step nilWord ⟨⟨1, true, 1, .owned [some 1]⟩, []⟩
      (.pushExtend ⟨0, by decide⟩ (.given 2)) =
        some ⟨⟨3, true, 2, .owned [some 1, some 0, some nullValue]⟩, []⟩ := rfl
  have hrun : Reachable nilWord Making.Fits (fun _ _ => True)
      ⟨⟨3, true, 2, .owned [some 1, some 0, some nullValue]⟩, []⟩ :=
    Reachable.step hmake trivial hstep
  obtain ⟨x, hx⟩ := h nilWord _ hrun 2 (by decide)
  have hnull : x.1 = nullValue := (Option.some.inj (Except.ok.inj hx)).symm
  exact x.2 (by rw [hnull]; decide)

end Xcl.Vectors
