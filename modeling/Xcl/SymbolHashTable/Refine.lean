import Xcl.Lib.MapMod
import Xcl.SymbolHashTable.Probe

/-!
# Symbol tables as finite maps

* `Inv`: the invariant of a table that holds the map `m`;
* `Refines`, `Clean`, **`refines_iff_clean`**: the states of a run hold the finite map exactly when
  no put of the run is made on a shadowed name.
-/

namespace Xcl.SymbolHashTable

open MapMod

open HashTable (calculateInitialCapacity calculateInitialCapacity_eq loadThreshold allocated
  allocated_eq allocated_eq_zero and_mask_lt)

/-- `AbstractString::equal` on names. -/
def sameName (a b : Name) : Bool := a == b

theorem lawful_sameName : Lawful sameName where
  refl := by simp [sameName]
  symm := by simp [sameName]
  trans := by simp [sameName]

/-- The invariant of a table that holds the map `m`. -/
structure Inv (t : Table) (m : Name → Option Symbol) : Prop where
  represents : Represents sameName (live t.buckets) m
  reach : Reach t.buckets t.capacity t.mask
  count : t.count = (live t.buckets).length
  capacity : ∃ b ≤ 60, t.capacity = 2 ^ b
  length : t.buckets.length = t.capacity
  mask : t.mask = t.capacity - 1
  threshold : t.threshold = loadThreshold t.capacity
  le_threshold : t.count ≤ t.threshold

/-- The `k`-th slot of the search for a name. -/
def Table.slotAt (t : Table) (name : Name) (k : ℕ) : Option Slot :=
  t.buckets[((hash name &&& t.mask) + k) % t.capacity]?

/-- A `DELETED` slot comes before the symbol of this name. -/
def Shadowed (t : Table) (name : Name) : Prop :=
  ∃ i k s, i < k ∧ k < t.capacity ∧ t.slotAt name i = some .deleted ∧
    t.slotAt name k = some (.symbol s) ∧ s.name = name

def Absent (buckets : List Slot) (name : Name) : Prop :=
  ∀ x ∈ live buckets, sameName name x.1 = false

variable {t : Table} {m : Name → Option Symbol} {buckets : List Slot} {capacity mask : ℕ}
  {name : Name}

theorem Inv.capacity_pos (h : Inv t m) : 0 < t.capacity := by
  obtain ⟨b, -, hb⟩ := h.capacity
  rw [hb]
  positivity

/-! ## Searching -/

theorem absent_iff : Absent buckets name ↔
    ∀ (j : ℕ) (s : Symbol), buckets[j]? = some (.symbol s) → s.name ≠ name := by
  unfold Absent
  constructor
  · intro h j s hj hname
    have := h _ (mem_live.mpr ⟨j, s, hj, rfl⟩)
    simp [sameName, hname] at this
  · intro h x hx
    obtain ⟨j, s, hj, rfl⟩ := mem_live.mp hx
    simpa [sameName] using (h j s hj).symm

/-- A search that has seen no symbol of the name before the `k`-th slot, and ends there, has shown
that there is none. -/
theorem Reach.absent (h : Reach buckets capacity mask) {k : ℕ}
    (hbefore : ∀ k' < k, ∀ s, buckets[((hash name &&& mask) + k') % capacity]? = some s →
      s.named name = false)
    (hend : capacity ≤ k ∨ buckets[((hash name &&& mask) + k) % capacity]? = some .null) :
    Absent buckets name := by
  rw [absent_iff]
  rintro j s hj rfl
  obtain ⟨k₀, hk₀, rfl, hnull⟩ := h j s hj
  by_cases hlt : k₀ < k
  · simpa [Slot.named] using hbefore k₀ hlt _ hj
  · rcases hend with hend | hend
    · omega
    · rcases Nat.eq_or_lt_of_le (not_lt.mp hlt) with rfl | hlt
      · rw [hj] at hend
        exact absurd hend (by simp)
      · exact hnull k hlt hend

/-- **The loop of `get` and `remove`.** -/
theorem Inv.find (h : Inv t m) (name : Name) :
    (∃ r, t.probe (findStop name) name = some r ∧
      (∀ j, r = some j → t.buckets[j]? = some .null) ∧ Absent t.buckets name) ∨
    ∃ j s, t.probe (findStop name) name = some (some j) ∧ t.buckets[j]? = some (.symbol s) ∧
      s.name = name := by
  have hnamed : ∀ s : Slot, findStop name s = false → s.named name = false := by
    intro s hs
    exact (Bool.or_eq_false_iff.mp hs).2
  obtain ⟨r, hr, hspec⟩ :=
    probe_spec (findStop name) (hash name &&& t.mask) h.length
      (Nat.zero_add t.capacity)
  cases r with
  | none =>
    refine .inl ⟨none, hr, by simp, h.reach.absent (k := t.capacity) ?_ (.inl le_rfl)⟩
    exact fun k' hk' s hs => hnamed s (hspec k' (Nat.zero_le _) hk' s hs)
  | some j =>
    obtain ⟨k, s, -, hk, rfl, hs, hstop, hbefore⟩ := hspec
    have hbefore' : ∀ k' < k, ∀ s', t.slotAt name k' = some s' → s'.named name = false :=
      fun k' hk' s' hs' => hnamed s' (hbefore k' (Nat.zero_le _) hk' s' hs')
    cases s with
    | null =>
      exact .inl ⟨_, hr, fun j hj => by cases hj; exact hs, h.reach.absent hbefore' (.inr hs)⟩
    | deleted => simp [findStop, Slot.named] at hstop
    | symbol s =>
      have hname : name = s.name := by simpa [findStop, Slot.named] using hstop
      exact .inr ⟨_, s, hr, hs, hname.symm⟩

/-- **`get` reads the map.** -/
theorem get_inv (h : Inv t m) (name : Name) : get t name = some (m name) := by
  rcases h.find name with ⟨r, hr, hnull, habsent⟩ | ⟨j, s, hr, hj, rfl⟩
  · rw [h.represents.eq_none habsent]
    cases r with
    | none => simp [get, hr]
    | some j => simp [get, hr, hnull j rfl]
  · rw [h.represents.eq_some (mem_live.mpr ⟨j, s, hj, rfl⟩) (by simp [sameName])]
    simp [get, hr, hj]

/-- **`remove` forgets the name.** -/
theorem remove_inv (h : Inv t m) (symbol : Symbol) :
    ∃ t' s, remove t symbol = some (t', s) ∧ Inv t' (MapMod.remove sameName m symbol.name) := by
  rcases h.find symbol.name with ⟨r, hr, hnull, habsent⟩ | ⟨j, s, hr, hj, hname⟩
  · rw [h.represents.remove_eq lawful_sameName habsent]
    cases r with
    | none => exact ⟨t, none, by simp [remove, hr], h⟩
    | some j => exact ⟨t, none, by simp [remove, hr, hnull j rfl], h⟩
  · obtain ⟨rest, hperm, hset, -⟩ := perm_live_set hj
    refine ⟨{ t with buckets := t.buckets.set j .deleted, count := t.count - 1 }, some s,
      by simp [remove, hr, hj], ?_, h.reach.set (by simp) (by simp), ?_, h.capacity,
      by simpa using h.length, h.mask, h.threshold, ?_⟩
    · have herase := (h.represents.perm lawful_sameName hperm).erase (l := []) lawful_sameName
        (show sameName symbol.name s.name = true by simp [sameName, hname])
      exact herase.perm lawful_sameName (hset .deleted).symm
    · simp [h.count, hperm.length_eq, (hset .deleted).length_eq, Slot.entries]
    · have := h.le_threshold
      show t.count - 1 ≤ t.threshold
      omega

/-! ## Putting -/

theorem slot_unique (h : Represents sameName (live buckets) m) {i j : ℕ} {s s' : Symbol}
    (hi : buckets[i]? = some (.symbol s)) (hj : buckets[j]? = some (.symbol s'))
    (hname : s.name = s'.name) : i = j := by
  by_contra hne
  obtain ⟨rest, hperm, -, hrest⟩ := perm_live_set hj
  have hd := (h.perm lawful_sameName hperm).distinct
  have := (List.pairwise_cons.mp hd).1 _ (hrest i s hne hi)
  simp [sameName, hname] at this

theorem Inv.exists_free (h : Inv t m) (hroom : t.count < t.threshold) :
    ∃ (j : ℕ) (slot : Slot), t.buckets[j]? = some slot ∧ slot.free = true := by
  apply SymbolHashTable.exists_free
  have hth := h.threshold
  have hc := h.count
  have hl := h.length
  unfold loadThreshold at hth
  omega

/-- The slot at which `put` stops: the first one that is free or holds the name. -/
theorem Inv.putProbe (h : Inv t m) (hroom : t.count < t.threshold) (name : Name) :
    ∃ k slot, k < t.capacity ∧
      t.probe (putStop name) name = some (some (((hash name &&& t.mask) + k) % t.capacity)) ∧
      t.slotAt name k = some slot ∧ putStop name slot = true ∧
      ∀ k' < k, ∀ s, t.slotAt name k' = some s → putStop name s = false := by
  obtain ⟨r, hr, hspec⟩ :=
    probe_spec (putStop name) (hash name &&& t.mask) h.length
      (Nat.zero_add t.capacity)
  cases r with
  | none =>
    obtain ⟨j, slot, hj, hfree⟩ := h.exists_free hroom
    have hlt : j < t.capacity := by
      rw [← h.length]
      exact (List.getElem?_eq_some_iff.mp hj).1
    obtain ⟨k, hk, rfl⟩ := exists_offset hlt (hash name &&& t.mask)
    have := hspec k (Nat.zero_le _) hk slot hj
    simp [putStop, hfree] at this
  | some j =>
    obtain ⟨k, s, -, hk, rfl, hs, hstop, hbefore⟩ := hspec
    exact ⟨k, s, hk, hr, hs, hstop, fun k' hk' s' hs' => hbefore k' (Nat.zero_le _) hk' s' hs'⟩

/-- A free slot at which `put` stops is reached by a later search, and if the name is not shadowed
then no symbol has it. -/
theorem Inv.absent_of_free (h : Inv t m) {k : ℕ} {slot : Slot} (hk : k < t.capacity)
    (hslot : t.slotAt name k = some slot) (hfree : slot.free = true)
    (hbefore : ∀ k' < k, ∀ s, t.slotAt name k' = some s → putStop name s = false)
    (hshadow : ¬ Shadowed t name) : Absent t.buckets name := by
  have hnamed : ∀ k' < k, ∀ s, t.slotAt name k' = some s → s.named name = false :=
    fun k' hk' s hs => (Bool.or_eq_false_iff.mp (hbefore k' hk' s hs)).2
  cases slot with
  | null => exact h.reach.absent hnamed (.inr hslot)
  | symbol s => simp [Slot.free] at hfree
  | deleted =>
    rw [absent_iff]
    rintro j s hj rfl
    obtain ⟨k₀, hk₀, rfl, -⟩ := h.reach j s hj
    rcases Nat.lt_trichotomy k₀ k with hlt | rfl | hgt
    · simpa [Slot.named] using hnamed k₀ hlt _ hj
    · rw [Table.slotAt, hj] at hslot
      exact absurd hslot (by simp)
    · exact hshadow ⟨k, k₀, s, hgt, hk₀, hslot, hj, rfl⟩

theorem fill_slot (h : Represents sameName (live buckets) m) {j : ℕ} {slot : Slot} {symbol : Symbol}
    (hj : buckets[j]? = some slot) (hfree : slot.free = true)
    (habsent : Absent buckets symbol.name) :
    Represents sameName (live (buckets.set j (.symbol symbol)))
        (MapMod.put sameName m symbol.name symbol) ∧
      (live (buckets.set j (.symbol symbol))).length = (live buckets).length + 1 := by
  obtain ⟨rest, hperm, hset, -⟩ := perm_live_set hj
  have hempty : slot.entries = [] := by
    cases slot with
    | null => rfl
    | deleted => rfl
    | symbol s => simp [Slot.free] at hfree
  have hset := hset (.symbol symbol)
  rw [hempty, List.nil_append] at hperm
  constructor
  · have hcons := (h.perm lawful_sameName hperm).cons (v := symbol) lawful_sameName
      fun x hx => habsent x (hperm.mem_iff.mpr hx)
    exact hcons.perm lawful_sameName hset.symm
  · rw [hset.length_eq, hperm.length_eq]
    simp [Slot.entries, Nat.add_comm]

theorem replace_slot (h : Represents sameName (live buckets) m) {j : ℕ} {sym symbol : Symbol}
    (hj : buckets[j]? = some (.symbol sym)) (hname : symbol.name = sym.name) :
    Represents sameName (live (buckets.set j (.symbol symbol)))
        (MapMod.put sameName m symbol.name symbol) ∧
      (live (buckets.set j (.symbol symbol))).length = (live buckets).length := by
  obtain ⟨rest, hperm, hset, -⟩ := perm_live_set hj
  have hset := hset (.symbol symbol)
  constructor
  · have hrep := (h.perm lawful_sameName hperm).replace (l := []) (v := symbol) lawful_sameName
      (show sameName symbol.name sym.name = true by simp [sameName, hname])
    rw [← hname] at hrep
    exact hrep.perm lawful_sameName hset.symm
  · rw [hset.length_eq, hperm.length_eq]
    simp [Slot.entries]

/-- The slot at which `put` stops is free or holds the name. -/
theorem free_or_named {slot : Slot} (h : putStop name slot = true) :
    slot.free = true ∨ ∃ sym, slot = .symbol sym ∧ name = sym.name := by
  cases slot with
  | null => exact .inl rfl
  | deleted => exact .inl rfl
  | symbol sym => exact .inr ⟨sym, rfl, by simpa [putStop, Slot.free, Slot.named] using h⟩

theorem insert_free {symbol : Symbol} {j : ℕ} {slot : Slot}
    (hr : t.probe (putStop symbol.name) symbol.name = some (some j))
    (hj : t.buckets[j]? = some slot) (hfree : slot.free = true) :
    insert t symbol =
      some { t with buckets := t.buckets.set j (.symbol symbol), count := t.count + 1 } := by
  cases slot with
  | null => simp [insert, hr, hj]
  | deleted => simp [insert, hr, hj]
  | symbol s => simp [Slot.free] at hfree

/-- **The loop of `put`** on a table below its threshold. -/
theorem insert_inv (h : Inv t m) (hroom : t.count < t.threshold) (symbol : Symbol)
    (hshadow : ¬ Shadowed t symbol.name) :
    ∃ t', insert t symbol = some t' ∧ Inv t' (MapMod.put sameName m symbol.name symbol) := by
  obtain ⟨k, slot, hk, hr, hslot, hstop, hbefore⟩ := h.putProbe hroom symbol.name
  have hreach : Reach (t.buckets.set (((hash symbol.name &&& t.mask) + k) % t.capacity)
      (.symbol symbol)) t.capacity t.mask := by
    refine h.reach.set (by simp) fun s hs => ?_
    cases hs
    refine ⟨k, hk, rfl, fun k' hk' hnull => ?_⟩
    simpa [putStop, Slot.free] using hbefore k' hk' _ hnull
  rcases free_or_named hstop with hfree | ⟨sym, rfl, hname⟩
  · have habsent := h.absent_of_free hk hslot hfree hbefore hshadow
    obtain ⟨hrep, hlen⟩ := fill_slot h.represents hslot hfree habsent
    refine ⟨_, insert_free hr hslot hfree, hrep, hreach, ?_, h.capacity, by simpa using h.length,
      h.mask, h.threshold, hroom⟩
    rw [hlen, ← h.count]
  · obtain ⟨hrep, hlen⟩ := replace_slot h.represents hslot hname
    rw [Table.slotAt] at hslot
    by_cases hsym : sym = symbol
    · subst hsym
      have hsame : t.buckets.set (((hash sym.name &&& t.mask) + k) % t.capacity) (.symbol sym) =
          t.buckets := by
        obtain ⟨hlt, hget⟩ := List.getElem?_eq_some_iff.mp hslot
        rw [← hget, List.set_getElem_self]
      rw [hsame] at hrep
      exact ⟨t, by simp [insert, hr, hslot], hrep, h.reach, h.count, h.capacity, h.length, h.mask,
        h.threshold, h.le_threshold⟩
    · refine ⟨{ t with buckets :=
          t.buckets.set (((hash symbol.name &&& t.mask) + k) % t.capacity) (.symbol symbol) },
        by simp [insert, hr, hslot, hsym], hrep, hreach, ?_, h.capacity, by simpa using h.length,
        h.mask, h.threshold, h.le_threshold⟩
      rw [hlen, ← h.count]

/-- **A put on a shadowed name** leaves two symbols of that name. -/
theorem insert_shadowed (h : Inv t m) (hroom : t.count < t.threshold) (symbol : Symbol)
    (hshadow : Shadowed t symbol.name) {t' : Table} (ht : insert t symbol = some t')
    (m' : Name → Option Symbol) : ¬ Represents sameName (live t'.buckets) m' := by
  intro hrep
  obtain ⟨k, slot, hk, hr, hslot, hstop, hbefore⟩ := h.putProbe hroom symbol.name
  obtain ⟨i, k₀, s, hik, hk₀, hi, hs, hname⟩ := hshadow
  have hki : k ≤ i := by
    by_contra hlt
    have := hbefore i (not_le.mp hlt) _ hi
    simp [putStop, Slot.free] at this
  have hne : ((hash symbol.name &&& t.mask) + k₀) % t.capacity ≠
      ((hash symbol.name &&& t.mask) + k) % t.capacity := by
    intro heq
    have := offset_unique hk₀ hk heq
    omega
  have hfree : slot.free = true := by
    rcases free_or_named hstop with hfree | ⟨sym, rfl, hname'⟩
    · exact hfree
    · exact absurd (slot_unique h.represents hs hslot (hname.trans hname')) hne
  obtain rfl : _ = t' := Option.some.inj ((insert_free hr hslot hfree).symm.trans ht)
  obtain ⟨rest, -, hset, hrest⟩ := perm_live_set hslot
  have hd := (hrep.perm lawful_sameName (hset _)).distinct
  have := (List.pairwise_cons.mp hd).1 _ (hrest _ s hne hs)
  simp [sameName, hname] at this

/-! ## Rehashing -/

/-- The new vector in the middle of a rehash, when it holds the symbols `l`. -/
structure Moved (newCapacity mask : ℕ) (newBuckets : List Slot) (l : List (Name × Symbol)) :
    Prop where
  length : newBuckets.length = newCapacity
  reach : Reach newBuckets newCapacity mask
  live : (live newBuckets).Perm l
  noDeleted : ∀ j : ℕ, newBuckets[j]? ≠ some .deleted

/-- **The inner loop of `rehash`.** -/
theorem reinsert_spec {l : List (Name × Symbol)} (h : Moved capacity mask buckets l)
    (hroom : l.length < capacity) (symbol : Symbol) :
    ∃ buckets', reinsert capacity mask buckets symbol = some buckets' ∧
      Moved capacity mask buckets' ((symbol.name, symbol) :: l) := by
  obtain ⟨r, hr, hspec⟩ :=
    probe_spec Slot.free (hash symbol.name &&& mask) h.length
      (Nat.zero_add capacity)
  cases r with
  | none =>
    obtain ⟨j, slot, hj, hfree⟩ : ∃ (j : ℕ) (slot : Slot), buckets[j]? = some slot ∧
        slot.free = true := by
      apply exists_free
      rwa [h.live.length_eq, h.length]
    have hlt : j < capacity := by
      rw [← h.length]
      exact (List.getElem?_eq_some_iff.mp hj).1
    obtain ⟨k, hk, rfl⟩ := exists_offset hlt (hash symbol.name &&& mask)
    have := hspec k (Nat.zero_le _) hk slot hj
    rw [hfree] at this
    exact absurd this (by simp)
  | some j =>
    obtain ⟨k, slot, -, hk, rfl, hslot, hfree, hbefore⟩ := hspec
    have hempty : slot.entries = [] := by
      cases slot with
      | null => rfl
      | deleted => rfl
      | symbol s => simp [Slot.free] at hfree
    obtain ⟨rest, hperm, hset, -⟩ := perm_live_set hslot
    rw [hempty, List.nil_append] at hperm
    refine ⟨_, by simp only [reinsert, hr]; rfl, by simpa using h.length, ?_, ?_, fun i => ?_⟩
    · refine h.reach.set (by simp) fun s hs => ?_
      cases hs
      refine ⟨k, hk, rfl, fun k' hk' hnull => ?_⟩
      simpa [Slot.free] using hbefore k' (Nat.zero_le _) hk' _ hnull
    · exact (hset (.symbol symbol)).trans ((hperm.symm.trans h.live).cons _)
    · rw [List.getElem?_set]
      split_ifs
      · simp
      · simp
      · exact h.noDeleted i

/-- **The outer loop of `rehash`.** -/
theorem reinsertAll_spec {oldBuckets : List Slot} (hroom : (live oldBuckets).length < capacity)
    {i : ℕ} (hi : i ≤ oldBuckets.length)
    (h : Moved capacity mask buckets (live (oldBuckets.drop i))) :
    ∃ buckets', reinsertAll capacity mask oldBuckets i buckets = some buckets' ∧
      Moved capacity mask buckets' (live oldBuckets) := by
  induction i generalizing buckets with
  | zero => exact ⟨buckets, rfl, h⟩
  | succ i ih =>
    have hget : oldBuckets[i]? = some oldBuckets[i] := List.getElem?_eq_getElem hi
    have hdrop : live (oldBuckets.drop i) =
        oldBuckets[i].entries ++ live (oldBuckets.drop (i + 1)) := by
      rw [List.drop_eq_getElem_cons hi, live_cons]
    have hle : (live (oldBuckets.drop i)).length ≤ (live oldBuckets).length := by
      conv_rhs => rw [← List.take_append_drop i oldBuckets, live_append, List.length_append]
      exact Nat.le_add_left _ _
    unfold reinsertAll
    rw [hget]
    cases hslot : oldBuckets[i] with
    | null =>
      rw [hslot] at hdrop
      exact ih (by omega) (by rw [hdrop]; exact h)
    | deleted =>
      rw [hslot] at hdrop
      exact ih (by omega) (by rw [hdrop]; exact h)
    | symbol s =>
      rw [hslot] at hdrop
      have hlt : (live (oldBuckets.drop (i + 1))).length < capacity := by
        rw [hdrop] at hle
        simp only [List.length_append] at hle
        omega
      obtain ⟨buckets₁, hre, h₁⟩ := reinsert_spec h hlt s
      obtain ⟨buckets', hrun, h'⟩ := ih (by omega) (by rw [hdrop]; exact h₁)
      exact ⟨buckets', by simp [hre, hrun], h'⟩

theorem moved_replicate (c mask : ℕ) : Moved c mask (List.replicate c .null) [] where
  length := by simp
  reach j s hj := by simp [List.getElem?_replicate] at hj
  live := by simp [SymbolHashTable.live, Slot.entries]
  noDeleted j := by simp [List.getElem?_replicate]

theorem allocBuckets_eq {c : ℕ} (h : c ≤ 2 ^ 60) : allocBuckets c = List.replicate c .null := by
  rw [allocBuckets, allocated_eq h]

/-- **`rehash` keeps the symbols** and leaves no `DELETED` slot. -/
theorem rehash_inv (h : Inv t m) (hcap : t.capacity < 2 ^ 60) :
    ∃ t', rehash t = some t' ∧ Inv t' m ∧ t'.count < t'.threshold ∧
      ∀ j : ℕ, t'.buckets[j]? ≠ some .deleted := by
  obtain ⟨b, hb, hpow⟩ := h.capacity
  have hb' : b < 60 := by
    by_contra hcon
    obtain rfl : b = 60 := by omega
    omega
  have hdouble : t.capacity * 2 = 2 ^ (b + 1) := by rw [hpow, pow_succ]
  have hle : t.capacity * 2 ≤ 2 ^ 60 := by
    rw [hdouble]
    exact Nat.pow_le_pow_right (by norm_num) hb'
  have hpos := h.capacity_pos
  have hth := h.threshold
  have hcount := h.le_threshold
  unfold loadThreshold at hth
  have hroom : (live t.buckets).length < t.capacity * 2 := by
    rw [← h.count]
    omega
  have hstart : Moved (t.capacity * 2) (t.capacity * 2 - 1) (allocBuckets (t.capacity * 2))
      (live (t.buckets.drop t.capacity)) := by
    rw [allocBuckets_eq hle, ← h.length, List.drop_length]
    exact moved_replicate _ _
  obtain ⟨buckets', hrun, hmoved⟩ := reinsertAll_spec hroom (le_of_eq h.length.symm) hstart
  refine ⟨⟨buckets', t.capacity * 2, t.count, loadThreshold (t.capacity * 2), t.capacity * 2 - 1⟩,
    by simp [rehash, hrun], ⟨?_, hmoved.reach, ?_, ⟨b + 1, hb', hdouble⟩, hmoved.length, rfl, rfl,
    ?_⟩, ?_, hmoved.noDeleted⟩
  · exact h.represents.perm lawful_sameName hmoved.live.symm
  · rw [hmoved.live.length_eq, ← h.count]
  · show t.count ≤ loadThreshold (t.capacity * 2)
    unfold loadThreshold
    omega
  · show t.count < loadThreshold (t.capacity * 2)
    unfold loadThreshold
    omega

theorem reinsertAll_nil {oldBuckets : List Slot} {i : ℕ} (hpos : 0 < capacity)
    (hlive : live (oldBuckets.take i) ≠ []) : reinsertAll capacity mask oldBuckets i [] = none := by
  induction i with
  | zero => simp [live] at hlive
  | succ i ih =>
    unfold reinsertAll
    cases hget : oldBuckets[i]? with
    | none => rfl
    | some slot =>
      have htake : live (oldBuckets.take (i + 1)) = live (oldBuckets.take i) ++ slot.entries := by
        simp [List.take_add_one, hget]
      rw [htake] at hlive
      cases slot with
      | null => exact ih (by simpa [Slot.entries] using hlive)
      | deleted => exact ih (by simpa [Slot.entries] using hlive)
      | symbol s =>
        obtain ⟨n, rfl⟩ : ∃ n, capacity = n + 1 := ⟨capacity - 1, by omega⟩
        simp [reinsert, probe]

/-! ## Operations -/

/-- What a put needs: room for the doubled vector if the table is full, and otherwise that the
name is not shadowed. -/
def PutOk (t : Table) (symbol : Symbol) : Prop :=
  (t.threshold ≤ t.count → t.capacity < 2 ^ 60) ∧
    (t.count < t.threshold → ¬ Shadowed t symbol.name)

/-- **`put` updates the map.** -/
theorem put_inv (h : Inv t m) (symbol : Symbol) (hok : PutOk t symbol) :
    ∃ t', put t symbol = some t' ∧ Inv t' (MapMod.put sameName m symbol.name symbol) := by
  unfold put
  by_cases hfull : t.count ≥ t.threshold
  · obtain ⟨t₁, hre, h₁, hroom, hno⟩ := rehash_inv h (hok.1 hfull)
    have hshadow : ¬ Shadowed t₁ symbol.name := by
      rintro ⟨i, k, s, -, -, hi, -⟩
      exact hno _ hi
    simpa [hfull, hre] using insert_inv h₁ hroom symbol hshadow
  · simpa [hfull] using insert_inv h (not_le.mp hfull) symbol (hok.2 (not_le.mp hfull))

theorem put_of_not_ok (h : Inv t m) {symbol : Symbol} (hok : ¬ PutOk t symbol) {t' : Table}
    (ht : put t symbol = some t') (m' : Name → Option Symbol) :
    ¬ Represents sameName (live t'.buckets) m' := by
  unfold put at ht
  by_cases hfull : t.count ≥ t.threshold
  · have hcap : t.capacity = 2 ^ 60 := by
      obtain ⟨b, hb, hpow⟩ := h.capacity
      have hle : t.capacity ≤ 2 ^ 60 := hpow ▸ Nat.pow_le_pow_right (by norm_num) hb
      have hge : ¬ t.capacity < 2 ^ 60 := fun hlt => hok ⟨fun _ => hlt, fun hlt => by omega⟩
      omega
    have hlive : live (t.buckets.take t.capacity) ≠ [] := by
      rw [← h.length, List.take_length]
      intro hnil
      have hth := h.threshold
      have hc := h.count
      rw [hnil] at hc
      rw [hcap, loadThreshold] at hth
      simp at hc
      omega
    have hnone : rehash t = none := by
      have halloc : allocBuckets (t.capacity * 2) = [] := by
        simp [allocBuckets, allocated, hcap]
      simp [rehash, halloc, reinsertAll_nil (show 0 < t.capacity * 2 by omega) hlive]
    simp [hfull, hnone] at ht
  · have hroom := not_le.mp hfull
    have hshadow : Shadowed t symbol.name := by
      by_contra hno
      exact hok ⟨fun hle => absurd hle hfull, fun _ => hno⟩
    rw [if_neg hfull] at ht
    exact insert_shadowed h hroom symbol hshadow ht m'

/-- **A new table** is empty. -/
theorem init_inv {size : ℕ} (hsize : size ≤ 2 ^ 60) : ∃ t, init size = some t ∧
    Inv t fun _ => none := by
  obtain ⟨c, hc, -, hlt, hcap⟩ := calculateInitialCapacity_eq (show size ≤ 2 ^ 61 by omega)
  have hc' : c ≤ 60 := by
    by_contra hcon
    obtain rfl : c = 61 := by omega
    have := hlt (by norm_num)
    omega
  have hle : 2 ^ c ≤ 2 ^ 60 := Nat.pow_le_pow_right (by norm_num) hc'
  have hmoved := moved_replicate (2 ^ c) (2 ^ c - 1)
  have hlive : live (List.replicate (2 ^ c) Slot.null) = [] := List.perm_nil.mp hmoved.live
  refine ⟨_, by simp [init, hcap]; rfl, ?_, ?_, ?_, ⟨c, hc', rfl⟩, ?_, rfl, rfl, Nat.zero_le _⟩
  · simpa [allocBuckets_eq hle, hlive] using represents_nil
  · simpa [allocBuckets_eq hle] using hmoved.reach
  · simp [allocBuckets_eq hle, hlive]
  · simp [allocBuckets_eq hle]

/-! ## Runs -/

/-- The table holds the map: no name occupies two slots, and `get` reads it. -/
structure Refines (t : Table) (m : Name → Option Symbol) : Prop where
  represents : Represents sameName (live t.buckets) m
  get : ∀ name, get t name = some (m name)

/-- The operations on the finite map. -/
def specStep (m : Name → Option Symbol) : Op → Name → Option Symbol
  | .put symbol => MapMod.put sameName m symbol.name symbol
  | .remove symbol => MapMod.remove sameName m symbol.name

/-- Every put of the run has what it needs. -/
def Clean : Table → List Op → Prop
  | _, [] => True
  | t, op :: ops => (∀ symbol, op = .put symbol → PutOk t symbol) ∧
    ∀ t', step t op = some t' → Clean t' ops

/-- **One operation keeps the invariant.** -/
theorem step_inv (h : Inv t m) (op : Op) (hok : ∀ symbol, op = .put symbol → PutOk t symbol) :
    ∃ t', step t op = some t' ∧ Inv t' (specStep m op) := by
  cases op with
  | put symbol => exact put_inv h symbol (hok symbol rfl)
  | remove symbol =>
    obtain ⟨t', s, hrun, h'⟩ := remove_inv h symbol
    exact ⟨t', by simp [step, hrun], h'⟩

/-- **A run keeps the invariant.** -/
theorem run_inv (h : Inv t m) {ops : List Op} (hclean : Clean t ops) {ops' : List Op}
    (hpre : ops' <+: ops) : ∃ t', run t ops' = some t' ∧ Inv t' (ops'.foldl specStep m) := by
  induction ops' generalizing t m ops with
  | nil => exact ⟨t, rfl, h⟩
  | cons op ops' ih =>
    obtain ⟨rest, rfl⟩ := hpre
    obtain ⟨t₁, hstep, h₁⟩ := step_inv h op hclean.1
    obtain ⟨t', hrun, h'⟩ := ih h₁ (hclean.2 t₁ hstep) (List.prefix_append ops' rest)
    exact ⟨t', by simp [run, hstep, hrun], h'⟩

theorem clean_of_refines (h : Inv t m) {ops : List Op}
    (hall : ∀ ops', ops' <+: ops → ∃ t', run t ops' = some t' ∧
      Refines t' (ops'.foldl specStep m)) : Clean t ops := by
  induction ops generalizing t m with
  | nil => trivial
  | cons op ops ih =>
    have hok : ∀ symbol, op = .put symbol → PutOk t symbol := by
      rintro symbol rfl
      by_contra hno
      obtain ⟨t', hrun, href⟩ := hall [.put symbol] ⟨ops, rfl⟩
      exact put_of_not_ok h hno (by simpa [run, step] using hrun) _ href.represents
    refine ⟨hok, fun t₁ hstep => ?_⟩
    obtain ⟨t₂, hstep₂, h₁⟩ := step_inv h op hok
    obtain rfl : t₁ = t₂ := Option.some.inj (hstep.symm.trans hstep₂)
    refine ih h₁ fun ops' hpre => ?_
    obtain ⟨t', hrun, href⟩ := hall (op :: ops') ((List.prefix_cons_inj op).mpr hpre)
    exact ⟨t', by simpa [run, hstep] using hrun, href⟩

theorem get_init_eq_none {size : ℕ} (hsize : 2 ^ 60 < size) (ht : init size = some t)
    (name : Name) : get t name = none := by
  simp only [init, Option.bind_eq_bind, Option.bind_eq_some_iff, Option.pure_def,
    Option.some.injEq] at ht
  obtain ⟨c, hc, rfl⟩ := ht
  have hpos : 0 < c := by
    by_contra hzero
    obtain rfl : c = 0 := by omega
    have hlarge : 0 < size := by omega
    have := (HashTable.doubleUntil_eq_some (b := 0) hlarge (by norm_num) hc).1
    omega
  obtain ⟨n, rfl⟩ : ∃ n, c = n + 1 := ⟨c - 1, by omega⟩
  simp [get, Table.probe, probe, allocBuckets, allocated_eq_zero hsize hc]

/-- **Symbol tables refine finite maps**, in every state of a run from a new table and across any
number of rehashes, exactly when the vector of the table can be allocated and no put of the run
finds a `DELETED` slot before the symbol of its name. -/
theorem refines_iff_clean (size : ℕ) (ops : List Op) :
    (∃ t, init size = some t ∧ ∀ ops', ops' <+: ops → ∃ t', run t ops' = some t' ∧
      Refines t' (ops'.foldl specStep fun _ => none)) ↔
      size ≤ 2 ^ 60 ∧ ∀ t, init size = some t → Clean t ops := by
  constructor
  · rintro ⟨t, ht, hall⟩
    have hsize : size ≤ 2 ^ 60 := by
      by_contra hlarge
      obtain ⟨t', hrun, href⟩ := hall [] List.nil_prefix
      obtain rfl : t = t' := by simpa [run] using hrun
      have := href.get []
      rw [get_init_eq_none (not_le.mp hlarge) ht] at this
      exact absurd this (by simp)
    obtain ⟨t₀, ht₀, h⟩ := init_inv hsize
    obtain rfl : t = t₀ := Option.some.inj (ht.symm.trans ht₀)
    refine ⟨hsize, fun t' ht' => ?_⟩
    obtain rfl : t = t' := Option.some.inj (ht.symm.trans ht')
    exact clean_of_refines h hall
  · rintro ⟨hsize, hclean⟩
    obtain ⟨t, ht, h⟩ := init_inv hsize
    refine ⟨t, ht, fun ops' hpre => ?_⟩
    obtain ⟨t', hrun, h'⟩ := run_inv h (hclean t ht) hpre
    exact ⟨t', hrun, h'.represents, get_inv h'⟩

/-- The symbols `A` and `F`, whose hash codes agree modulo `16`. -/
def symbolA : Symbol := ⟨0, [65]⟩

@[inherit_doc symbolA]
def symbolF : Symbol := ⟨1, [70]⟩

/-- `F` is put twice, the second time into the slot that `A` has left, and removed once. -/
def reusedSlot : List Op :=
  [.put symbolA, .put symbolF, .remove symbolA, .put symbolF, .remove symbolF]

/-- A removed symbol comes back. -/
theorem not_refines_reusedSlot :
    ¬ ∃ t, init 16 = some t ∧ ∀ ops', ops' <+: reusedSlot → ∃ t', run t ops' = some t' ∧
      Refines t' (ops'.foldl specStep fun _ => none) := by
  rintro ⟨t, ht, hall⟩
  obtain ⟨t', hrun, href⟩ := hall reusedSlot List.prefix_rfl
  have hget : ((init 16).bind fun t => (run t reusedSlot).bind fun t' => get t' symbolF.name) =
      some (some symbolF) := by decide +kernel
  rw [ht, Option.bind_some, hrun, Option.bind_some, href.get] at hget
  exact absurd hget (by decide)

end Xcl.SymbolHashTable
