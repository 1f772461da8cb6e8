import Mathlib.Tactic

/-!
# Capacities of the kernel's hash tables

Every hash table of the kernel has a power of two buckets and is doubled when it is three quarters
full. `INDEX` has 64 bits. The load factor `0.75f` times a power of two is exact, so the threshold
is `capacity * 3 / 4`.
-/

namespace Xcl.HashTable

/-- The loop of `calculate_initial_capacity`, at most `n` rounds of it; `INDEX` has 64 bits. -/
def doubleUntil (size : ℕ) : ℕ → ℕ → Option ℕ
  | 0, _ => none
  | n + 1, capacity =>
    if capacity < size then doubleUntil size n (capacity * 2 % 2 ^ 64) else some capacity

def calculateInitialCapacity (size : ℕ) : Option ℕ := doubleUntil size 65 1

/-- `(INDEX) (capacity * HASH_TABLE_LOAD_FACTOR)`. -/
def loadThreshold (capacity : ℕ) : ℕ := capacity * 3 / 4

/-- The length of a bucket vector of `capacity * sizeof(void *)` bytes. The number of bytes is
computed in 64 bits. -/
def allocated (capacity : ℕ) : ℕ := capacity * 8 % 2 ^ 64 / 8

/-- A bucket vector of at most `2 ^ 60` buckets is as long as it should be. -/
theorem allocated_eq {c : ℕ} (h : c ≤ 2 ^ 60) : allocated c = c := by
  have hlt : c * 8 < 2 ^ 64 := by omega
  rw [allocated, Nat.mod_eq_of_lt hlt, Nat.mul_div_cancel _ (by norm_num)]

theorem and_mask_lt (h b : ℕ) : h &&& (2 ^ b - 1) < 2 ^ b := by
  rw [Nat.and_two_pow_sub_one_eq_mod]
  exact Nat.mod_lt _ (by positivity)

/-- The initial capacity is the least power of two that is not below the size. -/
theorem doubleUntil_eq {size b n : ℕ} (hsize : size ≤ 2 ^ 61) (hb : b ≤ 61) (hn : 61 < n + b) :
    ∃ c, b ≤ c ∧ c ≤ 61 ∧ size ≤ 2 ^ c ∧ (b < c → 2 ^ (c - 1) < size) ∧
      doubleUntil size n (2 ^ b) = some (2 ^ c) := by
  induction n generalizing b with
  | zero => omega
  | succ n ih =>
    rw [doubleUntil]
    split_ifs with hlt
    · have hb' : b < 61 := by
        by_contra hc
        obtain rfl : b = 61 := by omega
        omega
      have hmod : 2 ^ b * 2 % 2 ^ 64 = 2 ^ (b + 1) := by
        rw [← pow_succ]
        exact Nat.mod_eq_of_lt (Nat.pow_lt_pow_right (by norm_num) (by omega))
      obtain ⟨c, hc₁, hc₂, hc₃, hc₄, hc₅⟩ := ih (b := b + 1) (by omega) (by omega)
      refine ⟨c, by omega, hc₂, hc₃, fun _ => ?_, hmod ▸ hc₅⟩
      rcases Nat.eq_or_lt_of_le hc₁ with rfl | hlt'
      · exact hlt
      · exact hc₄ hlt'
    · exact ⟨b, le_rfl, hb, not_lt.mp hlt, fun h => absurd h (lt_irrefl b), rfl⟩

theorem calculateInitialCapacity_eq {size : ℕ} (hsize : size ≤ 2 ^ 61) :
    ∃ c ≤ 61, size ≤ 2 ^ c ∧ (0 < c → 2 ^ (c - 1) < size) ∧
      calculateInitialCapacity size = some (2 ^ c) := by
  obtain ⟨c, -, hc, h₁, h₂, h₃⟩ := doubleUntil_eq (n := 65) (b := 0) hsize (by omega) (by omega)
  exact ⟨c, hc, h₁, h₂, h₃⟩

/-! ## Sizes that are too large -/

theorem doubleUntil_zero {size : ℕ} (hsize : 0 < size) (n : ℕ) : doubleUntil size n 0 = none := by
  induction n with
  | zero => rfl
  | succ n ih => simp [doubleUntil, hsize, ih]

theorem doubleUntil_eq_some {size b n c : ℕ} (hsize : 0 < size) (hb : b ≤ 63)
    (h : doubleUntil size n (2 ^ b) = some c) : size ≤ c ∧ ∃ k ≤ 63, c = 2 ^ k := by
  induction n generalizing b with
  | zero => simp [doubleUntil] at h
  | succ n ih =>
    rw [doubleUntil] at h
    split_ifs at h with hlt
    · rcases Nat.lt_or_eq_of_le hb with hb | rfl
      · have hmod : 2 ^ b * 2 % 2 ^ 64 = 2 ^ (b + 1) := by
          rw [← pow_succ]
          exact Nat.mod_eq_of_lt (Nat.pow_lt_pow_right (by norm_num) (by omega))
        rw [hmod] at h
        exact ih hb h
      · -- the bit is shifted out, and the loop goes on with `0` for ever
        have hmod : 2 ^ 63 * 2 % 2 ^ 64 = 0 := by norm_num
        rw [hmod, doubleUntil_zero hsize] at h
        exact absurd h (by simp)
    · obtain rfl : 2 ^ b = c := by simpa using h
      exact ⟨not_lt.mp hlt, b, hb, rfl⟩

/-- The bucket vector of a table of more than `2 ^ 60` buckets has no bytes. -/
theorem allocated_eq_zero {size c : ℕ} (hsize : 2 ^ 60 < size)
    (h : calculateInitialCapacity size = some c) : allocated c = 0 := by
  obtain ⟨hle, k, hk, rfl⟩ := doubleUntil_eq_some (b := 0) (by omega) (by norm_num) h
  have hk' : 61 ≤ k := by
    by_contra hcon
    have : 2 ^ k ≤ 2 ^ 60 := Nat.pow_le_pow_right (by norm_num) (by omega)
    omega
  have hdvd : 2 ^ 64 ∣ 2 ^ k * 8 := by
    rw [show 2 ^ k * 8 = 2 ^ (k + 3) by rw [pow_add]; norm_num]
    exact pow_dvd_pow 2 (by omega)
  rw [allocated, Nat.mod_eq_zero_of_dvd hdvd, Nat.zero_div]

end Xcl.HashTable
