import Xcl.Arrays.Model
import Xcl.Sequences.Find

/-!
# The elements that `:count` allows

* `Affected`: the positions at which an element is replaced or removed;
* **`exists_last`**: where a loop that counts them ends.
-/

namespace Xcl.Sequences

open Arrays (mostPositiveFixnum)

variable {α : Type}

/-! ## The arguments -/

/-- `real-count`; nothing is `nil`. -/
def realCount : Option ℤ → ℤ
  | none => mostPositiveFixnum
  | some count =>
    if -mostPositiveFixnum - 1 ≤ count ∧ count ≤ mostPositiveFixnum then
      if count < 0 then 0 else count
    else if count < 0 then 0 else mostPositiveFixnum

/-- The test of a function; `normal` has an item to compare with. -/
inductive Pred (α : Type)
  | normal (item : α) (test : α → α → Bool) (testNot : Option (α → α → Bool))
  | ifTest (test : α → Bool)
  | ifNot (test : α → Bool)

def Pred.holds (key : Option (α → α)) : Pred α → α → Bool
  | .normal item test testNot => locaterTestNot item test testNot key
  | .ifTest test => locaterIfTest test true key
  | .ifNot test => locaterIfTest test false key

/-! ## Positions -/

section

variable (p : α → Bool) (xs : List α)

/-- How many elements match, from position `i` to before `j`. -/
def matchesIn (i j : ℕ) : ℕ := ((xs.take j).drop i).countP p

/-- The count admits an element after `n` others. -/
def Admits (count : Option ℤ) (n : ℕ) : Prop := count.all (fun c => (n : ℤ) < max 0 c) = true

/-- One of the first matching elements that the count admits, or of the last with `:from-end`. -/
def Affected (fromEnd : Bool) (start stop : ℕ) (count : Option ℤ) (i : ℕ) : Prop :=
  start ≤ i ∧ i < stop ∧ xs[i]?.any p = true ∧
    Admits count (if fromEnd then matchesIn p xs (i + 1) stop else matchesIn p xs start i)

/-- One of the matching elements that come before `limit` is reached. -/
def Hit (start stop : ℕ) (limit : ℤ) (i : ℕ) : Prop :=
  start ≤ i ∧ i < stop ∧ xs[i]?.any p = true ∧
    (matchesIn p xs start i : ℤ) < limit

instance (start stop : ℕ) (limit : ℤ) (i : ℕ) : Decidable (Hit p xs start stop limit i) :=
  inferInstanceAs (Decidable (_ ∧ _ ∧ _ ∧ _))

end

variable {p : α → Bool} {xs : List α} {start stop i : ℕ} {limit : ℤ} {count : Option ℤ}

theorem matchesIn_le (p : α → Bool) (xs : List α) (i j : ℕ) : matchesIn p xs i j ≤ j - i := by
  refine List.countP_le_length.trans ?_
  simp only [List.length_drop, List.length_take]
  omega

theorem matchesIn_mono (p : α → Bool) (xs : List α) (i : ℕ) {j k : ℕ} (hjk : j ≤ k) :
    matchesIn p xs i j ≤ matchesIn p xs i k :=
  ((List.take_sublist_take_left hjk).drop i).countP_le

theorem matchesIn_self (p : α → Bool) (xs : List α) (i : ℕ) : matchesIn p xs i i = 0 := by
  have hle := matchesIn_le p xs i i
  omega

theorem matchesIn_succ {x : α} (hi : start ≤ i) (hx : xs[i]? = some x) :
    matchesIn p xs start (i + 1) = matchesIn p xs start i + if p x then 1 else 0 := by
  have hlt : i < xs.length := (List.getElem?_eq_some_iff.1 hx).1
  have hdrop : (xs.take (i + 1)).drop start = (xs.take i).drop start ++ [x] := by
    rw [List.take_add_one, hx, List.drop_append_of_le_length (by rw [List.length_take]; omega)]
    rfl
  rw [matchesIn, hdrop, List.countP_append, List.countP_singleton]
  rfl

theorem matchesIn_reverse (hstop : stop ≤ xs.length) (hi : i < xs.length) :
    matchesIn p xs.reverse (xs.length - stop) (xs.length - 1 - i) =
      matchesIn p xs (i + 1) stop := by
  have hend : xs.length - (xs.length - 1 - i) = i + 1 := by omega
  have hsize : xs.length - (i + 1) - (xs.length - stop) = stop - (i + 1) := by omega
  rw [matchesIn, List.take_reverse, hend, List.drop_reverse, List.countP_reverse, List.length_drop,
    hsize, matchesIn, List.drop_take]

theorem realCount_nonneg (count : Option ℤ) : 0 ≤ realCount count := by
  unfold realCount mostPositiveFixnum
  cases count with
  | none => norm_num
  | some c =>
    dsimp only
    split_ifs <;> omega

theorem lt_realCount_iff {n : ℕ} (hn : (n : ℤ) < mostPositiveFixnum) :
    (n : ℤ) < realCount count ↔ Admits count n := by
  unfold realCount Admits
  cases count with
  | none => exact iff_of_true hn rfl
  | some c =>
    simp only [Option.all_some, decide_eq_true_eq]
    split_ifs <;> omega

theorem hit_iff_affected (hstop : stop ≤ xs.length) (hsize : (xs.length : ℤ) ≤ mostPositiveFixnum) :
    Hit p xs start stop (realCount count) i ↔ Affected p xs false start stop count i := by
  refine and_congr_right fun _ => and_congr_right fun hi => and_congr_right fun _ => ?_
  have hle := matchesIn_le p xs start i
  exact lt_realCount_iff (by omega)

theorem hit_reverse_iff_affected (hstop : stop ≤ xs.length) (hi : i < xs.length)
    (hsize : (xs.length : ℤ) ≤ mostPositiveFixnum) :
    Hit p xs.reverse (xs.length - stop) (xs.length - start) (realCount count) (xs.length - 1 - i) ↔
      Affected p xs true start stop count i := by
  have hget : xs.reverse[xs.length - 1 - i]? = xs[i]? := by
    rw [List.getElem?_reverse (by omega)]
    congr 1
    omega
  have hle := matchesIn_le p xs (i + 1) stop
  rw [Hit, Affected, hget, matchesIn_reverse hstop hi, lt_realCount_iff (by omega)]
  simp only [if_true]
  constructor
  · exact fun ⟨h1, h2, h⟩ => ⟨by omega, by omega, h⟩
  · exact fun ⟨h1, h2, h⟩ => ⟨by omega, by omega, h⟩

/-- **The end of a loop** that goes from `start` to `stop` and counts matching elements down from
`limit`: before it each matching element is one of them, and none is after it. -/
theorem exists_last (hstart : start ≤ stop) (hstop : stop ≤ xs.length) (hlimit : 0 ≤ limit) :
    ∃ e, start ≤ e ∧ e ≤ stop ∧
      (∀ k, start ≤ k → k < e → (matchesIn p xs start k : ℤ) < limit) ∧
      (e = stop ∨ (matchesIn p xs start e : ℤ) = limit) := by
  induction stop, hstart using Nat.le_induction with
  | base => exact ⟨start, le_rfl, le_rfl, fun k h1 h2 => by omega, .inl rfl⟩
  | succ stop hstart ih =>
    obtain ⟨e, h1, h2, hbefore, hend⟩ := ih (by omega)
    have hend' : (matchesIn p xs start e : ℤ) < limit ∨ (matchesIn p xs start e : ℤ) = limit := by
      rcases Nat.eq_or_lt_of_le h1 with rfl | hlt
      · rw [matchesIn_self]
        omega
      · obtain ⟨k, rfl⟩ : ∃ k, e = k + 1 := ⟨e - 1, by omega⟩
        have hk := hbefore k (by omega) (by omega)
        rw [matchesIn_succ (by omega) (List.getElem?_eq_getElem (by omega))]
        split_ifs <;> push_cast <;> omega
    rcases hend' with hlt | heq
    · obtain rfl : e = stop := hend.resolve_right hlt.ne
      refine ⟨e + 1, by omega, le_rfl, fun k hk hke => ?_, .inl rfl⟩
      rcases Nat.lt_succ_iff_lt_or_eq.1 hke with hke | rfl
      · exact hbefore k hk hke
      · exact hlt
    · exact ⟨e, h1, by omega, hbefore, .inr heq⟩

theorem not_hit {e : ℕ} (hend : e = stop ∨ (matchesIn p xs start e : ℤ) = limit)
    (hi : i < start ∨ e ≤ i) : ¬Hit p xs start stop limit i := by
  rintro ⟨h1, h2, -, hlt⟩
  rcases hend with rfl | heq
  · omega
  · have := matchesIn_mono p xs start (show e ≤ i by omega)
    omega

end Xcl.Sequences
