import Mathlib.Order.Basic
import Xcl.Vectors.Model

/-!
# The copying loops

* **`forLoop_write`**: a loop that writes an element in every round.
-/

namespace Xcl.Vectors

open Loops

variable {δ ε : Type} {data data' : List δ} {i lo n : ℕ} {x : δ}

/-! ## Reading and writing -/

theorem read_eq_ok : read data i = .ok x ↔ data[i]? = some x := by
  unfold read
  cases data[i]? with
  | none => exact ⟨fun h => (by cases h), fun h => (by cases h)⟩
  | some y =>
    exact ⟨fun h => congrArg some (Except.ok.inj h),
      fun h => congrArg Except.ok (Option.some.inj h)⟩

theorem read_ne_badIndex : read data i ≠ .error .badIndex := by
  unfold read
  cases data[i]? with
  | none => exact fun h => by cases h
  | some y => exact fun h => by cases h

theorem write_eq_ok : write data i x = .ok data' ↔ i < data.length ∧ data' = data.set i x := by
  unfold write
  split_ifs with h
  · exact ⟨fun heq => ⟨h, (Except.ok.inj heq).symm⟩, fun heq => congrArg Except.ok heq.2.symm⟩
  · exact ⟨fun heq => (by cases heq), fun heq => absurd heq.1 h⟩

theorem arrayAref_eq_ok {array : List ε} {a : ε} :
    arrayAref array i = .ok a ↔ array[i]? = some a := by
  unfold arrayAref
  cases array[i]? with
  | none => exact ⟨fun h => (by cases h), fun h => (by cases h)⟩
  | some y =>
    exact ⟨fun h => congrArg some (Except.ok.inj h),
      fun h => congrArg Except.ok (Option.some.inj h)⟩

theorem arrayAset_eq_ok {array array' : List ε} {a : ε} :
    arrayAset array i a = .ok array' ↔ i < array.length ∧ array' = array.set i a := by
  unfold arrayAset
  split_ifs with h
  · exact ⟨fun heq => ⟨h, (Except.ok.inj heq).symm⟩, fun heq => congrArg Except.ok heq.2.symm⟩
  · exact ⟨fun heq => (by cases heq), fun heq => absurd heq.1 h⟩

@[simp] theorem length_malloc (fresh : ℕ → δ) (n : ℕ) : (malloc fresh n).length = n := by
  simp [malloc]

variable {K : Kind δ ε} {s : State δ ε}

theorem aref_owned (h : s.vector.storage = .owned data) (hi : i < s.vector.capacity) :
    aref K s i = K.load <$> read data i := by
  rw [aref, if_neg (Nat.not_le_of_lt hi), h]

theorem aref_displaced {offset : ℕ} (h : s.vector.storage = .displaced offset)
    (hi : i < s.vector.capacity) : aref K s i = arrayAref s.array (i + offset) := by
  rw [aref, if_neg (Nat.not_le_of_lt hi), h]

theorem aref_mk_owned {capacity fillPointer : ℕ} {hasFillPointer : Bool} {array : List ε}
    (hi : i < capacity) :
    aref K ⟨⟨capacity, hasFillPointer, fillPointer, .owned data⟩, array⟩ i = K.load <$> read data i
      :=
  aref_owned rfl hi

theorem aref_mk_displaced {capacity fillPointer offset : ℕ} {hasFillPointer : Bool} {array : List ε}
    (hi : i < capacity) :
    aref K ⟨⟨capacity, hasFillPointer, fillPointer, .displaced offset⟩, array⟩ i =
      arrayAref array (i + offset) := aref_displaced rfl hi

/-! ## Loops -/

/-- **A loop that writes an element in every round.** -/
theorem forLoop_write (body : ℕ → List δ → Result (List δ)) (a : ℕ → δ) (lo n : ℕ)
    (data : List δ) (hbody : ∀ j d, lo ≤ j → j < lo + n → body j d = write d j (a j))
    (hlength : lo + n ≤ data.length) :
    ∃ d, forLoop body n lo data = .ok d ∧ d.length = data.length ∧
      ∀ i, d[i]? = if lo ≤ i ∧ i < lo + n then some (a i) else data[i]? := by
  have hloop := forLoop_ok body (n := n) (i := lo) (s := data)
    (P := fun j d => d.length = data.length ∧
      ∀ i, d[i]? = if lo ≤ i ∧ i < j then some (a i) else data[i]?) ?_ ?_
  · obtain ⟨d, hd, hdl, hdi⟩ := hloop
    exact ⟨d, hd, hdl, hdi⟩
  · refine ⟨rfl, fun i => ?_⟩
    rw [if_neg (by omega)]
  · rintro j d hj hj' ⟨hdl, hdi⟩
    refine ⟨d.set j (a j), ?_, by rw [List.length_set, hdl], fun i => ?_⟩
    · rw [hbody j d hj hj', write, if_pos (by omega)]
      rfl
    · rw [List.getElem?_set]
      by_cases hij : j = i
      · subst hij
        rw [if_pos rfl, if_pos (by omega), if_pos (by omega)]
      · rw [if_neg hij, hdi i]
        have hlt : (lo ≤ i ∧ i < j) ↔ (lo ≤ i ∧ i < j + 1) := by omega
        simp only [hlt]

theorem forLoop_length {body : ℕ → List δ → Result (List δ)} {Q : ℕ → ℕ → Prop}
    (hbody : ∀ j d d', body j d = .ok d' → d'.length = d.length ∧ Q j d.length)
    (h : forLoop body n lo data = .ok data') :
    data'.length = data.length ∧ ∀ j, lo ≤ j → j < lo + n → Q j data.length := by
  have hlength : ∀ (j : ℕ) (d d' : List δ), d.length = data.length →
      body j d = .ok d' → d'.length = data.length :=
    fun j d d' hd hd' => (hbody j d d' hd').1.trans hd
  refine ⟨forLoop_inv (P := fun d => d.length = data.length) rfl hlength h, fun j hj hj' => ?_⟩
  obtain ⟨d, d', hd, hround⟩ :=
    forLoop_round (P := fun d => d.length = data.length) rfl hlength h hj hj'
  exact hd ▸ (hbody j d d' hround).2

theorem length_of_write {j : ℕ} {d d' : List δ} (h : write d j x = .ok d') :
    d'.length = d.length ∧ j < d.length := by
  obtain ⟨hj, rfl⟩ := write_eq_ok.mp h
  exact ⟨List.length_set, hj⟩

theorem length_of_read_write {get : ℕ → Result δ} {j : ℕ} {d d' : List δ}
    (h : (do write d j (← get j)) = Except.ok d') :
    d'.length = d.length ∧ j < d.length ∧ ∃ x, get j = .ok x := by
  obtain ⟨x, hx, hw⟩ := bind_eq_ok.mp h
  exact ⟨(length_of_write hw).1, (length_of_write hw).2, x, hx⟩

end Xcl.Vectors
