import Xcl.Lib.Buckets
import Xcl.SymbolHashTable.Model

/-!
# Probing a symbol table

* `probe_spec`: the loop stops at the first slot of the cyclic sequence at which it may;
* `live`: the symbols in the slots, with their names.
-/

namespace Xcl.SymbolHashTable

variable {buckets : List Slot} {stop : Slot → Bool} {limit index : ℕ}

/-- The outcome of the loop over the slots from the `i`-th on. -/
def ProbeSpec (buckets : List Slot) (stop : Slot → Bool) (limit index i : ℕ) :
    Option ℕ → Prop
  | none => ∀ k, i ≤ k → k < limit → ∀ s, buckets[(index + k) % limit]? = some s → stop s = false
  | some j => ∃ k s, i ≤ k ∧ k < limit ∧ j = (index + k) % limit ∧ buckets[j]? = some s ∧
      stop s = true ∧
      ∀ k', i ≤ k' → k' < k → ∀ s', buckets[(index + k') % limit]? = some s' → stop s' = false

/-- **The loop over the slots.** -/
theorem probe_spec (stop : Slot → Bool) (index : ℕ) (hlen : buckets.length = limit) {n i : ℕ}
    (h : i + n = limit) :
    ∃ r, probe buckets stop limit index n i = some r ∧
      ProbeSpec buckets stop limit index i r := by
  induction n generalizing i with
  | zero => exact ⟨none, rfl, fun k hk hlt => by omega⟩
  | succ n ih =>
    have hlt : (index + i) % limit < buckets.length := by
      rw [hlen]
      exact Nat.mod_lt _ (by omega)
    have hget := List.getElem?_eq_getElem hlt
    by_cases hs : stop (buckets[(index + i) % limit]) = true
    · refine ⟨some ((index + i) % limit), by simp [probe, hget, hs], i, _, le_rfl, by omega, rfl,
        hget, hs, fun k' hk hk' => by omega⟩
    · obtain ⟨r, hr, hspec⟩ := ih (show i + 1 + n = limit by omega)
      have hfirst : ∀ s, buckets[(index + i) % limit]? = some s → stop s = false := by
        intro s hs'
        rw [hget] at hs'
        cases hs'
        exact Bool.eq_false_iff.mpr hs
      refine ⟨r, by simp [probe, hget, hs, hr], ?_⟩
      cases r with
      | none =>
        intro k hk hk' s hks
        rcases Nat.eq_or_lt_of_le hk with rfl | hk
        · exact hfirst s hks
        · exact hspec k hk hk' s hks
      | some j =>
        obtain ⟨k, s, hk, hk', hj, hget', hstop, hbefore⟩ := hspec
        refine ⟨k, s, by omega, hk', hj, hget', hstop, fun k' hik hlt s' hs' => ?_⟩
        rcases Nat.eq_or_lt_of_le hik with rfl | hik
        · exact hfirst s' hs'
        · exact hbefore k' hik hlt s' hs'

theorem exists_offset {j : ℕ} (hj : j < limit) (index : ℕ) :
    ∃ k < limit, (index + k) % limit = j := by
  have hmod : index % limit < limit := Nat.mod_lt _ (by omega)
  refine ⟨(j + (limit - index % limit)) % limit, Nat.mod_lt _ (by omega), ?_⟩
  rw [Nat.add_mod_mod, ← Nat.mod_add_mod,
    show index % limit + (j + (limit - index % limit)) = j + limit by omega, Nat.add_mod_right,
    Nat.mod_eq_of_lt hj]

theorem offset_unique {k k' : ℕ} (hk : k < limit) (hk' : k' < limit)
    (h : (index + k) % limit = (index + k') % limit) : k = k' := by
  have hmod : k % limit = k' % limit := Nat.ModEq.add_left_cancel' index h
  rwa [Nat.mod_eq_of_lt hk, Nat.mod_eq_of_lt hk'] at hmod

/-! ## The symbols in the slots -/

def Slot.entries : Slot → List (Name × Symbol)
  | .null => []
  | .deleted => []
  | .symbol s => [(s.name, s)]

/-- The symbols in the slots, under their names. -/
def live (buckets : List Slot) : List (Name × Symbol) := (buckets.map Slot.entries).flatten

@[simp] theorem live_nil : live [] = [] := rfl

@[simp] theorem live_cons (slot : Slot) (buckets : List Slot) :
    live (slot :: buckets) = slot.entries ++ live buckets := rfl

@[simp] theorem live_append (buckets₁ buckets₂ : List Slot) :
    live (buckets₁ ++ buckets₂) = live buckets₁ ++ live buckets₂ := by
  simp [live]

theorem mem_live {x : Name × Symbol} :
    x ∈ live buckets ↔
      ∃ (j : ℕ) (s : Symbol), buckets[j]? = some (.symbol s) ∧ x = (s.name, s) := by
  unfold live
  simp only [List.mem_flatten, List.mem_map]
  constructor
  · rintro ⟨_, ⟨slot, hslot, rfl⟩, hx⟩
    obtain ⟨j, hj⟩ := List.mem_iff_getElem?.mp hslot
    cases slot with
    | null => simp [Slot.entries] at hx
    | deleted => simp [Slot.entries] at hx
    | symbol s => exact ⟨j, s, hj, by simpa [Slot.entries] using hx⟩
  · rintro ⟨j, s, hj, rfl⟩
    exact ⟨_, ⟨_, List.mem_of_getElem? hj, rfl⟩, by simp [Slot.entries]⟩

/-- The symbols outside slot `j` do not change when slot `j` does. -/
theorem perm_live_set {j : ℕ} {slot : Slot} (h : buckets[j]? = some slot) :
    ∃ rest, (live buckets).Perm (slot.entries ++ rest) ∧
      (∀ slot', (live (buckets.set j slot')).Perm (slot'.entries ++ rest)) ∧
      ∀ i s, i ≠ j → buckets[i]? = some (.symbol s) → (s.name, s) ∈ rest := by
  have hmap : (buckets.map Slot.entries)[j]? = some slot.entries := by simp [h]
  obtain ⟨rest, hperm, hset, hrest⟩ := Buckets.exists_flatten_perm hmap
  refine ⟨rest, hperm, fun slot' => ?_, fun i s hi his => ?_⟩
  · unfold live
    rw [List.map_set]
    exact hset slot'.entries
  · exact hrest i _ hi (by simp [his]; rfl) _ (by simp [Slot.entries])

theorem exists_free (h : (live buckets).length < buckets.length) :
    ∃ (j : ℕ) (slot : Slot), buckets[j]? = some slot ∧ slot.free = true := by
  by_contra hno
  have hone : ∀ slot ∈ buckets, slot.entries.length = 1 := by
    intro slot hslot
    obtain ⟨j, hj⟩ := List.mem_iff_getElem?.mp hslot
    cases slot with
    | null => exact absurd ⟨j, _, hj, rfl⟩ hno
    | deleted => exact absurd ⟨j, _, hj, rfl⟩ hno
    | symbol s => rfl
  have hlen : (live buckets).length = buckets.length := by
    have hmap : buckets.map (List.length ∘ Slot.entries) = buckets.map fun _ => 1 :=
      List.map_congr_left hone
    unfold live
    rw [List.length_flatten, List.map_map, hmap]
    simp
  omega

/-! ## Reaching a symbol -/

/-- A symbol of this name in slot `j` is found: no slot before it is `NULL`. -/
def ReachAt (buckets : List Slot) (capacity mask : ℕ) (name : Name) (j : ℕ) : Prop :=
  ∃ k < capacity, ((hash name &&& mask) + k) % capacity = j ∧
    ∀ k' < k, buckets[((hash name &&& mask) + k') % capacity]? ≠ some .null

/-- Every symbol is found. -/
def Reach (buckets : List Slot) (capacity mask : ℕ) : Prop :=
  ∀ (j : ℕ) (s : Symbol), buckets[j]? = some (.symbol s) → ReachAt buckets capacity mask s.name j

variable {capacity mask : ℕ}

/-- **A change of one slot** that leaves no `NULL` behind. -/
theorem Reach.set (h : Reach buckets capacity mask) {j : ℕ} {slot : Slot} (hnull : slot ≠ .null)
    (hslot : ∀ s, slot = .symbol s → ReachAt buckets capacity mask s.name j) :
    Reach (buckets.set j slot) capacity mask := by
  have keep : ∀ i : ℕ, buckets[i]? ≠ some .null → (buckets.set j slot)[i]? ≠ some .null := by
    intro i hi
    rw [List.getElem?_set]
    split_ifs with hij hlt
    · simpa using hnull
    · simp
    · exact hi
  intro i s his
  have hreach : ReachAt buckets capacity mask s.name i := by
    rw [List.getElem?_set] at his
    split_ifs at his with hij hlt
    · subst hij
      exact hslot s (by simpa using his)
    · exact h i s his
  obtain ⟨k, hk, hj, hbefore⟩ := hreach
  exact ⟨k, hk, hj, fun k' hk' => keep _ (hbefore k' hk')⟩

end Xcl.SymbolHashTable
