import Xcl.Displaced.Model
import Xcl.Arrays.Addresses

/-!
# Displaced arrays as windows

* `extent`: the number of elements that an array has;
* **`windows_iff`**: when all arrays of a chain are windows.
-/

namespace Xcl.Displaced

open Loops (bind_eq_ok)

/-! ## What an access touches -/

/-- The place of the storage that a read has touched. -/
def place : Except Failure (ℕ × Value) → Option ℕ
  | .ok (i, _) => some i
  | .error (.element i _) => some i
  | .error _ => none

theorem place_readCheck (type : ElementType) (r : Except Failure (ℕ × Value)) :
    place (r >>= type.readCheck) = place r := by
  cases r with
  | error failure => rfl
  | ok access =>
    show place (type.readCheck access) = _
    rw [ElementType.readCheck]
    split_ifs <;> rfl

/-- Nothing is touched. -/
def Rejected (r : Except Failure (ℕ × Value)) : Prop :=
  ∃ failure, r = .error failure ∧ place r = none

theorem rejected_iff {r : Except Failure (ℕ × Value)} : Rejected r ↔ place r = none := by
  constructor
  · rintro ⟨failure, -, hplace⟩
    exact hplace
  · intro hplace
    cases r with
    | error failure => exact ⟨failure, rfl, hplace⟩
    | ok access => cases hplace

namespace AbstractArray

/-- The number of elements that an array has: the first ones of its indices. -/
def extent : AbstractArray → ℕ
  | .storage s => if s.kind = .vector ∧ s.type = .nil then 0 else s.elements.length
  | .displaced _ _ totalSize offset array => min totalSize (array.extent - offset)

/-- The offsets through the general arrays, which check no size. -/
def run : AbstractArray → ℕ
  | .displaced .general _ _ offset array => offset + array.run
  | _ => 0

/-- The next array below that is no displaced general one. -/
def bottom : AbstractArray → AbstractArray
  | .displaced .general _ _ _ array => array.bottom
  | array => array

theorem extent_lt (a : AbstractArray) : a.extent < 2 ^ 61 := by
  induction a with
  | storage s =>
    rw [extent]
    split_ifs
    · norm_num
    · exact s.bounded
  | displaced kind type n offset array ih =>
    rw [extent]
    omega

/-- What a displaced array does with an element of its target. -/
def readCheck (a : AbstractArray) (access : ℕ × Value) : Except Failure (ℕ × Value) :=
  if a.kind = .vector then a.elementType.readCheck access else .ok access

def writeCheck (a : AbstractArray) (value : Value) : Except Failure Value :=
  if a.kind = .vector then a.elementType.writeCheck value else .ok value

/-- The array with another target. -/
def retarget : AbstractArray → AbstractArray → AbstractArray
  | .displaced kind type n offset _, array => .displaced kind type n offset array
  | .storage s, _ => .storage s

end AbstractArray

open AbstractArray

/-- `d` is a window on `t` from the offset on. -/
structure IsWindow (d t : AbstractArray) (offset : ℕ) : Prop where
  read : ∀ i : ℕ, i < d.totalSize → offset + i < t.extent →
    rowMajorAref d i = t.aref (offset + i) >>= d.readCheck
  noRead : ∀ index : ℤ, (∀ i : ℕ, i = index → i < d.totalSize → ¬offset + i < t.extent) →
    Rejected (rowMajorAref d index)
  write : ∀ (i : ℕ) value, i < d.totalSize → offset + i < t.extent →
    rowMajorAset d i value =
      d.writeCheck value >>= fun value => d.retarget <$> t.aset (offset + i) value
  noWrite : ∀ (index : ℤ) value,
    (∀ i : ℕ, i = index → i < d.totalSize → ¬offset + i < t.extent) →
    ∃ failure, rowMajorAset d index value = .error failure

def Chain.Windows : Chain → Prop
  | .storage _ => True
  | .displaced r c => c.Windows ∧
    ∀ t d, c.array = .ok t → r.run t = .ok d → IsWindow d t r.offset

/-- The indices from which the offsets lead, modulo `2 ^ 64`, to an element of the bottom of the
target are below the total size, if the array lets them pass; and the offset is the one asked for,
and no sum wraps around. -/
def AbstractArray.Covers (offset : ℕ) : AbstractArray → Prop
  | .storage _ => True
  | .displaced kind _ totalSize stored array =>
    ∀ i < 2 ^ 61, kind = .general ∨ i < totalSize →
      (i + (stored + array.run)) % 2 ^ 64 < array.bottom.extent →
      i < totalSize ∧ stored = offset ∧ i + (stored + array.run) < 2 ^ 64

def Chain.Covered : Chain → Prop
  | .storage _ => True
  | .displaced r c => c.Covered ∧
    ∀ t d, c.array = .ok t → r.run t = .ok d → d.Covers r.offset

/-! ## The calls -/

theorem checkIndex_natCast {i : ℕ} (h : i < 2 ^ 61) : checkIndex i = .ok i := by
  have hle : (i : ℤ) ≤ Arrays.mostPositiveFixnum := by
    rw [Arrays.mostPositiveFixnum]
    omega
  rw [checkIndex, if_pos ⟨Int.natCast_nonneg i, hle⟩, Int.toNat_natCast]

theorem checkIndex_cases (index : ℤ) :
    (∃ i : ℕ, i = index ∧ i < 2 ^ 61 ∧ checkIndex index = .ok i) ∨
      checkIndex index = .error (.index index) := by
  by_cases h : 0 ≤ index ∧ index ≤ Arrays.mostPositiveFixnum
  · left
    refine ⟨index.toNat, Int.toNat_of_nonneg h.1, ?_, if_pos h⟩
    have hle := h.2
    rw [Arrays.mostPositiveFixnum] at hle
    omega
  · exact Or.inr (if_neg h)

theorem checkIndex_lt {index : ℤ} {i : ℕ} (h : checkIndex index = .ok i) :
    i = index ∧ i < 2 ^ 61 := by
  rcases checkIndex_cases index with ⟨j, hj, hlt, hok⟩ | herror
  · obtain rfl := Except.ok.inj (hok.symm.trans h)
    exact ⟨hj, hlt⟩
  · rw [herror] at h
    cases h

theorem checkOffset_eq {r : Request} {offset : ℕ}
    (h : checkOffset r.displacedIndexOffset = .ok offset) :
    offset = r.offset ∧ offset < 2 ^ 61 := by
  rw [Request.offset]
  cases hoffset : r.displacedIndexOffset with
  | none =>
    rw [hoffset] at h
    cases h
    exact ⟨rfl, by norm_num⟩
  | some asked =>
    rw [hoffset] at h
    obtain ⟨heq, hlt⟩ := checkIndex_lt h
    exact ⟨by rw [Option.getD_some, ← heq, Int.toNat_natCast], hlt⟩

/-- What a call can make: an array displaced to the target, with the offset asked for unless it is
a general one. -/
structure Made (asked : ℕ) (kind : Kind) (totalSize stored : ℕ) : Prop where
  asked_lt : asked < 2 ^ 61
  stored_le : stored ≤ asked
  own : kind ≠ .general → stored = asked ∧ totalSize < 2 ^ 61
  zeroRank : kind = .zeroRank → totalSize = 1

theorem makeArray_ok {r : Request} {t d : AbstractArray}
    (h : makeArray r.dimensions t r.displacedIndexOffset = .ok d) :
    ∃ kind type n stored, d = .displaced kind type n stored t ∧
      Made r.offset kind n stored := by
  obtain ⟨dims, hdims, h⟩ := bind_eq_ok.mp h
  obtain ⟨offset, hoffset, h⟩ := bind_eq_ok.mp h
  obtain ⟨rfl, hlt⟩ := checkOffset_eq hoffset
  split at h
  · cases h
    exact ⟨_, _, _, _, rfl, hlt, le_refl _, fun _ => ⟨rfl, by norm_num⟩, fun _ => rfl⟩
  · next dim _ =>
    cases h
    have hdim : dim < 2 ^ 61 := by
      cases hdimensions : r.dimensions with
      | nil =>
        rw [hdimensions] at hdims
        cases hdims
      | cons dimension dimensions =>
        rw [hdimensions, List.mapM_cons] at hdims
        obtain ⟨dim', hdim', hrest⟩ := bind_eq_ok.mp hdims
        obtain ⟨rest, -, hreturn⟩ := bind_eq_ok.mp hrest
        cases hreturn
        exact (checkIndex_lt hdim').2
    exact ⟨_, _, _, _, rfl, hlt, le_refl _, fun _ => ⟨rfl, hdim⟩, fun hno => by cases hno⟩
  · cases h
    exact ⟨_, _, _, _, rfl, hlt, le_refl _, fun hno => absurd rfl hno, fun hno => by cases hno⟩

theorem adjustArray_ok {r : Request} {a t d : AbstractArray} (ha : a.kind ≠ .zeroRank)
    (h : adjustArray a r.dimensions t r.displacedIndexOffset = .ok d) :
    ∃ kind type n stored, d = .displaced kind type n stored t ∧
      Made r.offset kind n stored := by
  unfold adjustArray at h
  cases hkind : a.kind with
  | zeroRank => exact absurd hkind ha
  | vector =>
    simp only [hkind] at h
    split at h
    · obtain ⟨newSize, hsize, h⟩ := bind_eq_ok.mp h
      obtain ⟨offset, hoffset, h⟩ := bind_eq_ok.mp h
      obtain ⟨rfl, hlt⟩ := checkOffset_eq hoffset
      have hmade : Made r.offset .vector newSize r.offset :=
        ⟨hlt, le_refl _, fun _ => ⟨rfl, (checkIndex_lt hsize).2⟩, fun hno => by cases hno⟩
      cases a with
      | storage s =>
        rw [displaceVector] at h
        split_ifs at h
        cases h
        exact ⟨_, _, _, _, rfl, hmade⟩
      | displaced kind type n stored array =>
        cases h
        exact ⟨_, _, _, _, rfl, hmade⟩
    · cases h
  | general =>
    simp only [hkind] at h
    obtain ⟨dims, -, h⟩ := bind_eq_ok.mp h
    obtain ⟨offset, hoffset, h⟩ := bind_eq_ok.mp h
    obtain ⟨rfl, hlt⟩ := checkOffset_eq hoffset
    cases a with
    | storage s =>
      rw [displaceArray] at h
      split_ifs at h
      cases h
      exact ⟨_, _, _, _, rfl, hlt, Nat.mod_le _ _, fun hno => absurd rfl hno,
        fun hno => by cases hno⟩
    | displaced kind type n stored array => cases h

theorem run_ok {r : Request} {t d : AbstractArray} (h : r.run t = .ok d) :
    ∃ kind type n stored, d = .displaced kind type n stored t ∧
      Made r.offset kind n stored := by
  rw [Request.run] at h
  split at h
  · exact makeArray_ok h
  · next a _ => exact adjustArray_ok a.2 h

/-! ## Where the accesses go -/

theorem place_bind_readCheck (a : AbstractArray) (r : Except Failure (ℕ × Value)) :
    place (r >>= a.readCheck) = place r := by
  by_cases hkind : a.kind = .vector
  · have hcheck : a.readCheck = a.elementType.readCheck := funext fun _ => if_pos hkind
    rw [hcheck, place_readCheck]
  · have hcheck : a.readCheck = Except.ok := funext fun _ => if_neg hkind
    rw [hcheck]
    cases r <;> rfl

section

variable {asked n stored : ℕ} {kind : Kind} {type : ElementType} {t : AbstractArray}

theorem zeroRank_guard {β : Type} (hmade : Made asked .zeroRank n stored) (i : ℕ)
    (access : ℕ → Except Failure β) :
    (if i = 0 then access stored else .error (.index i)) =
      if Kind.zeroRank = .general ∨ i < n then access ((i + stored) % 2 ^ 64)
      else .error (.index i) := by
  obtain rfl := hmade.zeroRank rfl
  have hlt := hmade.own (by decide)
  have hasked := hmade.asked_lt
  by_cases hi : i = 0
  · subst hi
    rw [if_pos rfl, if_pos (Or.inr Nat.one_pos), Nat.zero_add, Nat.mod_eq_of_lt (by omega)]
  · rw [if_neg hi, if_neg (by simpa using hi)]

theorem vector_guard {β : Type} (i : ℕ) (r : Except Failure β) :
    (if i ≥ n then .error (.index i) else r) =
      if Kind.vector = .general ∨ i < n then r else .error (.index i) := by
  by_cases hi : i < n
  · rw [if_neg (not_le.mpr hi), if_pos (Or.inr hi)]
  · rw [if_pos (not_lt.mp hi), if_neg (by simpa using hi)]

theorem aref_displaced (hmade : Made asked kind n stored) (i : ℕ) :
    (AbstractArray.displaced kind type n stored t).aref i =
      if kind = .general ∨ i < n then
        t.aref ((i + stored) % 2 ^ 64) >>= (AbstractArray.displaced kind type n stored t).readCheck
      else .error (.index i) := by
  have hbind : ∀ r : Except Failure (ℕ × Value), r >>= Except.ok = r := by
    intro r
    cases r <;> rfl
  cases kind with
  | zeroRank =>
    have hcheck : (displaced .zeroRank type n stored t).readCheck = Except.ok := rfl
    rw [hcheck, hbind]
    exact zeroRank_guard hmade i t.aref
  | vector => exact vector_guard i _
  | general =>
    have hcheck : (displaced .general type n stored t).readCheck = Except.ok := rfl
    rw [aref, if_pos (Or.inl rfl), hcheck, hbind]

theorem aset_displaced (hmade : Made asked kind n stored) (i : ℕ) (value : Value) :
    (AbstractArray.displaced kind type n stored t).aset i value =
      if kind = .general ∨ i < n then
        (AbstractArray.displaced kind type n stored t).writeCheck value >>= fun value =>
          (AbstractArray.displaced kind type n stored t).retarget <$>
            t.aset ((i + stored) % 2 ^ 64) value
      else .error (.index i) := by
  have hbind : ∀ r : Except Failure AbstractArray, (do
      let array ← r
      return AbstractArray.displaced kind type n stored array) =
      (AbstractArray.displaced kind type n stored t).retarget <$> r := by
    intro r
    cases r <;> rfl
  cases kind with
  | zeroRank =>
    rw [aset, hbind]
    exact zeroRank_guard hmade i fun j =>
      (displaced .zeroRank type n stored t).retarget <$> t.aset j value
  | vector =>
    have hcheck : (displaced .vector type n stored t).writeCheck value = type.writeCheck value := rfl
    rw [aset, vector_guard, hcheck]
    cases type.writeCheck value with
    | error failure => rfl
    | ok value => exact congrArg (ite _ · _) (hbind _)
  | general =>
    have hcheck : (displaced .general type n stored t).writeCheck value = .ok value := rfl
    rw [aset, if_pos (Or.inl rfl), hcheck]
    exact hbind _

end

theorem aset_of_rejected {a : AbstractArray} {i : ℕ} (h : place (a.aref i) = none)
    (value : Value) : ∃ failure, a.aset i value = .error failure := by
  induction a generalizing i value with
  | storage s =>
    by_cases hnil : s.kind = .vector ∧ s.type = .nil
    · exact ⟨.access, by rw [aset, Storage.aset, if_pos hnil]; rfl⟩
    · have hge : i ≥ s.elements.length := by
        by_contra hlt
        rw [aref, Storage.aref, if_neg hnil, List.getElem?_eq_getElem (not_le.mp hlt)] at h
        cases h
      exact ⟨.index i, by rw [aset, Storage.aset, if_neg hnil, if_pos hge]; rfl⟩
  | displaced kind type n stored array ih =>
    cases kind with
    | zeroRank =>
      rw [aref] at h
      rw [aset]
      split_ifs at h ⊢
      · obtain ⟨failure, herror⟩ := ih h value
        exact ⟨failure, by rw [herror]; rfl⟩
      · exact ⟨_, rfl⟩
    | vector =>
      rw [aref] at h
      rw [aset]
      split_ifs at h ⊢
      · exact ⟨_, rfl⟩
      · rw [place_readCheck] at h
        cases type.writeCheck value with
        | error failure => exact ⟨failure, rfl⟩
        | ok value =>
          obtain ⟨failure, herror⟩ := ih h value
          refine ⟨failure, ?_⟩
          show (array.aset _ value >>= _) = _
          rw [herror]
          rfl
    | general =>
      obtain ⟨failure, herror⟩ := ih h value
      exact ⟨failure, by rw [aset, herror]; rfl⟩

/-- The accesses of an array go to the elements of its bottom; those with a fixnum for an index that
find an element are the ones below the extent. -/
structure Located (a : AbstractArray) : Prop where
  place : ∃ shift, ∀ j < 2 ^ 64, place (a.aref j) =
    if (j + a.run) % 2 ^ 64 < a.bottom.extent then some ((j + a.run) % 2 ^ 64 + shift) else none
  extent : ∀ j < 2 ^ 61, j < a.extent ↔ (j + a.run) % 2 ^ 64 < a.bottom.extent
  within : ∀ j < a.extent, j + a.run < a.bottom.extent

theorem located_storage (s : Storage) : Located (.storage s) := by
  have hplace : ∀ j, place ((AbstractArray.storage s).aref j) =
      if j < (AbstractArray.storage s).extent then some j else none := by
    intro j
    rw [aref, Storage.aref, AbstractArray.extent]
    split_ifs with hnil hno hlt
    · exact absurd hno (Nat.not_lt_zero j)
    · rfl
    · rw [List.getElem?_eq_getElem hlt]
      rfl
    · rw [List.getElem?_eq_none (not_lt.mp hlt)]
      rfl
  refine ⟨⟨0, fun j hj => ?_⟩, fun j hj => ?_, fun j hj => hj⟩
  · have hrun : (AbstractArray.storage s).run = 0 := rfl
    rw [hrun, Nat.add_zero, Nat.mod_eq_of_lt hj]
    exact hplace j
  · show _ ↔ (j + 0) % 2 ^ 64 < (AbstractArray.storage s).extent
    rw [Nat.add_zero, Nat.mod_eq_of_lt (by omega)]

section

variable {asked n stored : ℕ} {kind : Kind} {type : ElementType} {t : AbstractArray}

variable (type) in
theorem place_displaced (hmade : Made asked kind n stored) (ht : Located t) :
    ∃ shift, ∀ i < 2 ^ 64,
      (place ((AbstractArray.displaced kind type n stored t).aref i) =
        if (kind = .general ∨ i < n) ∧ (i + (stored + t.run)) % 2 ^ 64 < t.bottom.extent then
          some ((i + (stored + t.run)) % 2 ^ 64 + shift) else none) ∧
      place (t.aref i) = if (i + t.run) % 2 ^ 64 < t.bottom.extent then
        some ((i + t.run) % 2 ^ 64 + shift) else none := by
  obtain ⟨shift, hshift⟩ := ht.place
  refine ⟨shift, fun i hi => ⟨?_, hshift i hi⟩⟩
  have hsum : ((i + stored) % 2 ^ 64 + t.run) % 2 ^ 64 = (i + (stored + t.run)) % 2 ^ 64 := by
    rw [Nat.mod_add_mod, Nat.add_assoc]
  rw [aref_displaced hmade]
  by_cases hpass : kind = .general ∨ i < n
  · rw [if_pos hpass, place_bind_readCheck, hshift _ (Nat.mod_lt _ (by norm_num)), hsum]
    simp only [hpass, true_and]
  · rw [if_neg hpass, if_neg fun h => hpass h.1]
    rfl

theorem rowMajorAref_natCast (a : AbstractArray) {i : ℕ} (h : i < 2 ^ 61) :
    rowMajorAref a i = a.aref i := by
  rw [rowMajorAref, checkIndex_natCast h]
  rfl

theorem rowMajorAset_natCast (a : AbstractArray) {i : ℕ} (h : i < 2 ^ 61) (value : Value) :
    rowMajorAset a i value = a.aset i value := by
  rw [rowMajorAset, checkIndex_natCast h]
  rfl

theorem Covers.stored_eq (hmade : Made asked kind n stored) (ht : Located t)
    (hcovers : (AbstractArray.displaced kind type n stored t).Covers asked) {i : ℕ} (hi : i < n)
    (hextent : asked + i < t.extent) : stored = asked := by
  have hwithin := ht.within _ hextent
  have hbottom := t.bottom.extent_lt
  have hle := hmade.stored_le
  refine (hcovers i (by omega) (Or.inr hi) ?_).2.1
  rw [Nat.mod_eq_of_lt (by omega)]
  omega

/-- An index that reaches an element of the bottom is one of the window. -/
theorem Covers.lt_extent (hmade : Made asked kind n stored) (ht : Located t)
    (hcovers : (AbstractArray.displaced kind type n stored t).Covers asked) {i : ℕ}
    (hi : i < 2 ^ 61) (hpass : kind = .general ∨ i < n)
    (hreach : (i + (stored + t.run)) % 2 ^ 64 < t.bottom.extent) :
    i < n ∧ asked + i < t.extent ∧ stored = asked := by
  obtain ⟨hlt, hstored, hsum⟩ := hcovers i hi hpass hreach
  have hbottom := t.bottom.extent_lt
  have hasked := hmade.asked_lt
  rw [Nat.mod_eq_of_lt hsum] at hreach
  refine ⟨hlt, (ht.extent _ (by omega)).mpr ?_, hstored⟩
  rw [Nat.mod_eq_of_lt (by omega)]
  omega

/-- **A displaced array is a window exactly when it covers its target**, if the target's accesses go
where they should. -/
theorem isWindow_iff (hmade : Made asked kind n stored) (ht : Located t) :
    IsWindow (.displaced kind type n stored t) t asked ↔
      (AbstractArray.displaced kind type n stored t).Covers asked := by
  set d := AbstractArray.displaced kind type n stored t with hd
  obtain ⟨shift, hshift⟩ := place_displaced type hmade ht
  have hbottom := t.bottom.extent_lt
  have hasked := hmade.asked_lt
  have hle := hmade.stored_le
  constructor
  · intro hwindow i hi hpass hreach
    obtain ⟨hplace, -⟩ := hshift i (by omega)
    rw [if_pos ⟨hpass, hreach⟩, ← hd] at hplace
    -- the access touches an element, so that it is one of the window
    have hin : i < n ∧ asked + i < t.extent := by
      by_contra hno
      have hrejected := hwindow.noRead i fun j hj hlt hextent => by
        obtain rfl := Int.natCast_inj.mp hj
        exact hno ⟨hlt, hextent⟩
      rw [rejected_iff, rowMajorAref_natCast d hi, hplace] at hrejected
      cases hrejected
    have hread := congrArg place (hwindow.read i hin.1 hin.2)
    obtain ⟨-, htarget⟩ := hshift (asked + i) (by omega)
    have hwithin := ht.within _ hin.2
    rw [rowMajorAref_natCast d hi, place_bind_readCheck, hplace, htarget,
      Nat.mod_eq_of_lt (by omega : asked + i + t.run < 2 ^ 64), if_pos hwithin] at hread
    have hsame := Nat.add_right_cancel (Option.some.inj hread)
    rw [Nat.mod_eq_of_lt (by omega)] at hsame
    exact ⟨hin.1, by omega, by omega⟩
  · intro hcovers
    have hpasses : ∀ i, i < n → asked + i < t.extent →
        i < 2 ^ 61 ∧ stored = asked ∧ (i + stored) % 2 ^ 64 = asked + i := by
      intro i hi hextent
      have hstored := Covers.stored_eq hmade ht hcovers hi hextent
      have hlt := t.extent_lt
      refine ⟨by omega, hstored, ?_⟩
      rw [Nat.mod_eq_of_lt (by omega)]
      omega
    have hrejected : ∀ i < 2 ^ 61, (i < n → ¬asked + i < t.extent) → place (d.aref i) = none := by
      intro i hi hno
      obtain ⟨hplace, -⟩ := hshift i (by omega)
      rw [hplace, if_neg]
      rintro ⟨hpass, hreach⟩
      obtain ⟨hlt, hextent, -⟩ := Covers.lt_extent hmade ht hcovers hi hpass hreach
      exact hno hlt hextent
    refine ⟨fun i hi hextent => ?_, fun index hno => ?_, fun i value hi hextent => ?_,
      fun index value hno => ?_⟩
    · have hi : i < n := hi
      obtain ⟨hlt, -, hindex⟩ := hpasses i hi hextent
      rw [rowMajorAref_natCast d hlt, aref_displaced hmade, if_pos (Or.inr hi), hindex]
    · rw [rejected_iff]
      rcases checkIndex_cases index with ⟨i, rfl, hlt, -⟩ | herror
      · rw [rowMajorAref_natCast d hlt]
        exact hrejected i hlt (hno i rfl)
      · rw [rowMajorAref, herror]
        rfl
    · have hi : i < n := hi
      obtain ⟨hlt, -, hindex⟩ := hpasses i hi hextent
      rw [rowMajorAset_natCast d hlt, aset_displaced hmade, if_pos (Or.inr hi), hindex]
    · rcases checkIndex_cases index with ⟨i, rfl, hlt, -⟩ | herror
      · rw [rowMajorAset_natCast d hlt]
        exact aset_of_rejected (hrejected i hlt (hno i rfl)) value
      · exact ⟨_, by rw [rowMajorAset, herror]; rfl⟩

theorem lt_extent_iff (hmade : Made asked kind n stored) (ht : Located t)
    (hcovers : (AbstractArray.displaced kind type n stored t).Covers asked) {i : ℕ}
    (hi : i < 2 ^ 61) :
    i < (AbstractArray.displaced kind type n stored t).extent ↔
      (kind = .general ∨ i < n) ∧ (i + (stored + t.run)) % 2 ^ 64 < t.bottom.extent := by
  rw [AbstractArray.extent, lt_min_iff]
  constructor
  · rintro ⟨hlt, hextent⟩
    have hwithin := ht.within (stored + i) (by omega)
    have hbottom := t.bottom.extent_lt
    refine ⟨Or.inr hlt, ?_⟩
    rw [Nat.mod_eq_of_lt (by omega)]
    omega
  · rintro ⟨hpass, hreach⟩
    obtain ⟨hlt, hextent, hstored⟩ := Covers.lt_extent hmade ht hcovers hi hpass hreach
    exact ⟨hlt, by omega⟩

theorem located_of_covers (hmade : Made asked kind n stored) (ht : Located t)
    (hcovers : (AbstractArray.displaced kind type n stored t).Covers asked) :
    Located (.displaced kind type n stored t) := by
  obtain ⟨shift, hshift⟩ := place_displaced type hmade ht
  have hextent_lt := (AbstractArray.displaced kind type n stored t).extent_lt
  have hextent := fun {i : ℕ} (hi : i < 2 ^ 61) => lt_extent_iff hmade ht hcovers hi
  by_cases hgeneral : kind = .general
  · subst hgeneral
    have hrun : (AbstractArray.displaced .general type n stored t).run = stored + t.run := rfl
    have hbottom : (AbstractArray.displaced .general type n stored t).bottom = t.bottom := rfl
    refine ⟨⟨shift, fun j hj => ?_⟩, fun j hj => ?_, fun j hj => ?_⟩
    · rw [hrun, hbottom, (hshift j hj).1]
      simp only [true_or, true_and]
    · rw [hrun, hbottom, hextent hj]
      simp only [true_or, true_and]
    · have hlt : j < min n (t.extent - stored) := hj
      have hwithin := ht.within (stored + j) (by omega)
      rw [hrun, hbottom]
      omega
  · have hrun : (AbstractArray.displaced kind type n stored t).run = 0 := by
      cases kind
      · rfl
      · rfl
      · exact absurd rfl hgeneral
    have hbottom : (AbstractArray.displaced kind type n stored t).bottom =
        .displaced kind type n stored t := by
      cases kind
      · rfl
      · rfl
      · exact absurd rfl hgeneral
    have hn := (hmade.own hgeneral).2
    refine ⟨⟨shift + (stored + t.run), fun j hj => ?_⟩, fun j hj => ?_, fun j hj => ?_⟩
    · rw [hrun, hbottom, (hshift j hj).1, Nat.add_zero, Nat.mod_eq_of_lt hj]
      by_cases hlt : j < (AbstractArray.displaced kind type n stored t).extent
      · have hreach := (hextent (by omega)).mp hlt
        have hsum := (hcovers j (by omega) hreach.1 hreach.2).2.2
        rw [if_pos hreach, if_pos hlt, Nat.mod_eq_of_lt hsum, Nat.add_assoc, Nat.add_comm shift]
      · rw [if_neg hlt, if_neg]
        intro hreach
        have hjn := hreach.1.resolve_left hgeneral
        exact hlt ((hextent (hjn.trans hn)).mpr hreach)
    · rw [hrun, hbottom, Nat.add_zero, Nat.mod_eq_of_lt (by omega)]
    · rw [hrun, hbottom]
      exact hj

end

/-- **The arrays of a chain are windows** exactly when each of them covers its target. -/
theorem windows_iff (c : Chain) : c.Windows ↔ c.Covered := by
  have hlocated : (c.Windows ↔ c.Covered) ∧ (c.Covered → ∀ a, c.array = .ok a → Located a) := by
    induction c with
    | storage s =>
      refine ⟨Iff.rfl, fun _ a ha => ?_⟩
      cases ha
      exact located_storage s
    | displaced r c ih =>
      obtain ⟨hiff, hlocated⟩ := ih
      refine ⟨?_, fun ⟨hcovered, hcovers⟩ a ha => ?_⟩
      · rw [Chain.Windows, Chain.Covered, ← hiff]
        refine and_congr_right fun hwindows => forall₄_congr fun t d ht hd => ?_
        obtain ⟨kind, type, n, stored, rfl, hmade⟩ := run_ok hd
        exact isWindow_iff hmade (hlocated (hiff.mp hwindows) t ht)
      · obtain ⟨t, ht, hd⟩ := bind_eq_ok.mp ha
        have hcovers := hcovers t a ht hd
        obtain ⟨kind, type, n, stored, rfl, hmade⟩ := run_ok hd
        exact located_of_covers hmade (hlocated hcovered t ht) hcovers
  exact hlocated.1

def narrowMatrix : Chain :=
  .displaced ⟨none, [1, 1], none⟩
    (.storage ⟨.vector, true, .t, [.fixnum 10, .fixnum 20], by decide⟩)

/-- A matrix adjusted to be displaced to a vector of one element, from `2 ^ 32` on. -/
def farMatrix : Chain :=
  .displaced ⟨some ⟨.storage ⟨.general, true, .t, [.fixnum 0], by decide⟩, by decide⟩, [1, 1],
      some 4294967296⟩
    (.storage ⟨.vector, true, .t, [.fixnum 10], by decide⟩)

/-- The narrow matrix reads the second element of the vector with an index of `1`; the offset of
the other one has become `0`. -/
theorem not_windows_matrix : ¬narrowMatrix.Windows ∧ ¬farMatrix.Windows := by
  constructor
  · rintro ⟨-, hwindow⟩
    have hno := (hwindow _ _ rfl rfl).noRead 1 fun i hi hlt => by
      obtain rfl : i = 1 := Int.natCast_inj.mp hi
      exact absurd hlt (by decide)
    exact absurd (rejected_iff.mp hno) (by decide)
  · rintro ⟨-, hwindow⟩
    have hno := (hwindow _ _ rfl rfl).noRead 0 fun i hi hlt hextent => by
      obtain rfl : i = 0 := Int.natCast_inj.mp hi
      exact absurd hextent (by decide)
    exact absurd (rejected_iff.mp hno) (by decide)

end Xcl.Displaced
