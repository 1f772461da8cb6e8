import Xcl.HashTable.Maphash

/-!
# Hash tables with any test

A test of the kernel need not be an equivalence relation that the hash codes respect. What holds
of every table all the same:

* `Hung`, `Sound`: the lists of the buckets, each entry in the bucket of its hash code, no key
  passing the test against the keys that were in its bucket before;
* **`sound_of_run`**: every table of a run is sound, or it has no buckets.
-/

namespace Xcl.HashTable

variable {κ ν : Type} [DecidableEq κ] {R : Runtime κ} {kind : Kind}

variable (R kind) in
/-- The search for the key of an entry passes the entries behind it. -/
def Newer (x y : Cell κ ν) : Prop := R.found kind x.2.1 y.2.1 = false

variable (R kind) in
/-- The lists `G` hang from the buckets. -/
structure Hung (t : Table κ ν) (G : List (List (Cell κ ν))) : Prop where
  chains : Chains t.heap t.buckets G
  separate : Separate G.flatten
  placed : ∀ (i : ℕ) g, G[i]? = some g → ∀ x ∈ g, R.hash x.2.1 &&& t.mask = i
  newer : ∀ g ∈ G, g.Pairwise (Newer R kind)
  capacity : ∃ b ≤ 60, t.capacity = 2 ^ b
  buckets_length : t.buckets.length = t.capacity
  mask : t.mask = t.capacity - 1
  threshold : t.threshold = loadThreshold t.capacity

variable (R kind) in
structure Sound (t : Table κ ν) (G : List (List (Cell κ ν))) : Prop extends Hung R kind t G where
  count : t.count = G.flatten.length
  le_threshold : t.count ≤ t.threshold

variable {t : Table κ ν} {G : List (List (Cell κ ν))} {g : List (Cell κ ν)} {i : ℕ}

/-! ## The bucket of a key -/

theorem Hung.index_lt (h : Hung R kind t G) (k : κ) : R.hash k &&& t.mask < t.buckets.length := by
  obtain ⟨b, -, hb⟩ := h.capacity
  rw [h.mask, h.buckets_length, hb]
  exact and_mask_lt _ b

theorem Hung.length_lt (h : Hung R kind t G) {p : Option ℕ} (hg : G[i]? = some g)
    (hseg : Seg t.heap p g none) : g.length < t.fuel := by
  obtain ⟨rest, hperm, -⟩ := Buckets.exists_flatten_perm hg
  exact Nat.lt_succ_of_le
    (hseg.length_le (List.pairwise_append.mp (h.separate.perm hperm)).1)

theorem Hung.bucket (h : Hung R kind t G) (k : κ) : ∃ p g,
    t.buckets[R.hash k &&& t.mask]? = some p ∧ G[R.hash k &&& t.mask]? = some g ∧
      Seg t.heap p g none ∧ g.length < t.fuel := by
  obtain ⟨p, g, hp, hg, hseg⟩ := h.chains.getElem? (h.index_lt k)
  exact ⟨p, g, hp, hg, hseg, h.length_lt hg hseg⟩

theorem Hung.pointer (h : Hung R kind t G) (hg : G[i]? = some g) :
    ∃ p, t.buckets[i]? = some p ∧ Seg t.heap p g none := by
  have hi : i < t.buckets.length := by
    rw [h.chains.length]
    exact (List.getElem?_eq_some_iff.mp hg).1
  obtain ⟨p, g', hp, hg', hseg⟩ := h.chains.getElem? hi
  obtain rfl : g = g' := Option.some.inj (hg.symm.trans hg')
  exact ⟨p, hp, hseg⟩

omit [DecidableEq κ] in
theorem set_pointer {buckets : List (Option ℕ)} {p : Option ℕ} (hp : buckets[i]? = some p) :
    buckets.set i p = buckets := by
  obtain ⟨hlt, hpe⟩ := List.getElem?_eq_some_iff.mp hp
  rw [← hpe]
  exact List.set_getElem_self hlt

theorem Hung.lt_length (h : Hung R kind t G) {x : Cell κ ν} (hx : x ∈ G.flatten) :
    x.1 < t.heap.length := by
  obtain ⟨g, hg, hx⟩ := List.mem_flatten.mp hx
  obtain ⟨i, hi⟩ := List.mem_iff_getElem?.mp hg
  obtain ⟨p, -, hseg⟩ := h.pointer hi
  exact hseg.lt_length hx

omit [DecidableEq κ] in
theorem mem_flatten_of_getElem? (hg : G[i]? = some g) {x : Cell κ ν} (hx : x ∈ g) :
    x ∈ G.flatten := List.mem_flatten.mpr ⟨g, List.mem_of_getElem? hg, hx⟩

/-! ## A change of one bucket -/

theorem Hung.set (h : Hung R kind t G) (hg : G[i]? = some g) {heap' : List (HashEntry κ ν)}
    {buckets' : List (Option ℕ)} {g' : List (Cell κ ν)}
    (hchains : Chains heap' buckets' (G.set i g')) (hlength : buckets'.length = t.buckets.length)
    (hplaced : ∀ x ∈ g', R.hash x.2.1 &&& t.mask = i)
    (hsep : ∀ rest, (∀ x ∈ rest, x ∈ G.flatten) → Separate (g ++ rest) → Separate (g' ++ rest))
    (hnewer : g'.Pairwise (Newer R kind)) (count : ℕ) :
    Hung R kind { t with heap := heap', buckets := buckets', count := count } (G.set i g') := by
  obtain ⟨rest, hperm, hset, -⟩ := Buckets.exists_flatten_perm hg
  refine ⟨hchains, ?_, fun j c hj x hx => ?_, fun c hc => ?_, h.capacity,
    hlength.trans h.buckets_length, h.mask, h.threshold⟩
  · exact (hsep rest (fun x hx => hperm.mem_iff.mpr (List.mem_append_right _ hx))
      (h.separate.perm hperm)).perm (hset g').symm
  · by_cases hji : j = i
    · subst hji
      rw [List.getElem?_set_self (List.getElem?_eq_some_iff.mp hg).1] at hj
      obtain rfl := Option.some.inj hj
      exact hplaced x hx
    · rw [List.getElem?_set_ne (Ne.symm hji)] at hj
      exact h.placed j c hj x hx
  · rcases List.mem_or_eq_of_mem_set hc with hc | rfl
    · exact h.newer c hc
    · exact hnewer

omit [DecidableEq κ] in
theorem length_flatten_set (hg : G[i]? = some g) (g' : List (Cell κ ν)) :
    (G.set i g').flatten.length + g.length = G.flatten.length + g'.length := by
  obtain ⟨rest, hperm, hset, -⟩ := Buckets.exists_flatten_perm hg
  rw [(hset g').length_eq, hperm.length_eq, List.length_append, List.length_append]
  omega

theorem Hung.replace (h : Hung R kind t G) {g₁ g₂ : List (Cell κ ν)} {x : Cell κ ν}
    (hg : G[i]? = some (g₁ ++ x :: g₂)) (value : ν) :
    ∃ e, t.heap[x.1]? = some e ∧
      Hung R kind { t with heap := t.heap.set x.1 { e with value := value } }
        (G.set i (g₁ ++ (x.1, x.2.1, value) :: g₂)) := by
  obtain ⟨a, k, v⟩ := x
  obtain ⟨p, hp, hseg⟩ := h.pointer hg
  obtain ⟨next, he⟩ := hseg.getElem? (x := (a, k, v)) (by simp)
  obtain ⟨rest, hperm, -, hrest⟩ := Buckets.exists_flatten_perm hg
  -- the address of the entry is not in any other place
  have hsep : Separate ((a, k, v) :: (g₁ ++ g₂ ++ rest)) := by
    refine h.separate.perm (hperm.trans ?_)
    simp
  have hne : ∀ y ∈ g₁ ++ g₂ ++ rest, y.1 ≠ a := fun y hy =>
    Ne.symm ((List.pairwise_cons.mp hsep).1 y hy)
  have hchains := h.chains.set
    (hseg.setValue (fun y hy => hne y (List.mem_append_left _ hy)) he value)
    fun j c hj hc y hy => List.getElem?_set_ne
      (Ne.symm (hne y (List.mem_append_right _ (hrest j c hj hc y hy))))
  rw [set_pointer hp] at hchains
  refine ⟨_, he, h.set hg hchains rfl (fun y hy => ?_) (fun rest _ hs => ?_) ?_ t.count⟩
  · have hpl := h.placed i _ hg
    rcases List.mem_append.mp hy with hy | hy
    · exact hpl y (List.mem_append_left _ hy)
    · rcases List.mem_cons.mp hy with rfl | hy
      · exact hpl (a, k, v) (by simp)
      · exact hpl y (by simp [hy])
  · rw [separate_iff] at hs ⊢
    simpa using hs
  · -- the test only looks at the keys
    have hold := h.newer _ (List.mem_of_getElem? hg)
    have hmap : ∀ l : List (Cell κ ν), l.Pairwise (Newer R kind) ↔
        (l.map fun x => x.2.1).Pairwise fun k k' => R.found kind k k' = false := by
      intro l
      rw [List.pairwise_map]
      rfl
    rw [hmap] at hold ⊢
    simpa using hold

theorem Hung.insert (h : Hung R kind t G) {key : κ} {p : Option ℕ}
    (hp : t.buckets[R.hash key &&& t.mask]? = some p)
    (hg : G[R.hash key &&& t.mask]? = some g)
    (hno : ∀ x ∈ g, R.found kind key x.2.1 = false) (value : ν) (count : ℕ) :
    Hung R kind { t with
        heap := t.heap ++ [⟨key, value, p⟩]
        buckets := t.buckets.set (R.hash key &&& t.mask) (some t.heap.length)
        count := count }
      (G.set (R.hash key &&& t.mask) ((t.heap.length, key, value) :: g)) := by
  obtain ⟨p', hp', hseg⟩ := h.pointer hg
  obtain rfl : p = p' := Option.some.inj (hp.symm.trans hp')
  have hold : ∀ x ∈ G.flatten, (t.heap ++ [⟨key, value, p⟩])[x.1]? = t.heap[x.1]? := fun x hx =>
    List.getElem?_append_left (h.lt_length hx)
  have hchains : Chains (t.heap ++ [⟨key, value, p⟩])
      (t.buckets.set (R.hash key &&& t.mask) (some t.heap.length))
      (G.set (R.hash key &&& t.mask) ((t.heap.length, key, value) :: g)) := by
    refine h.chains.set ⟨rfl, p, by simp, hseg.congr fun x hx => ?_⟩ fun j c _ hc x hx => ?_
    · exact hold x (mem_flatten_of_getElem? hg hx)
    · exact hold x (mem_flatten_of_getElem? hc hx)
  refine h.set hg hchains List.length_set (fun x hx => ?_) (fun rest hr hs => ?_) ?_ count
  · rcases List.mem_cons.mp hx with rfl | hx
    · rfl
    · exact h.placed _ g hg x hx
  · refine List.pairwise_cons.mpr ⟨fun x hx => Nat.ne_of_gt (h.lt_length ?_), hs⟩
    rcases List.mem_append.mp hx with hx | hx
    · exact mem_flatten_of_getElem? hg hx
    · exact hr x hx
  · exact List.pairwise_cons.mpr ⟨hno, h.newer g (List.mem_of_getElem? hg)⟩

theorem Hung.unlink (h : Hung R kind t G) {g₁ g₂ : List (Cell κ ν)} {x : Cell κ ν}
    (hg : G[i]? = some (g₁ ++ x :: g₂)) {heap' : List (HashEntry κ ν)}
    {buckets' : List (Option ℕ)} (hchains : Chains heap' buckets' (G.set i (g₁ ++ g₂)))
    (hlength : buckets'.length = t.buckets.length) (count : ℕ) :
    Hung R kind { t with heap := heap', buckets := buckets', count := count }
      (G.set i (g₁ ++ g₂)) := by
  have hsub : (g₁ ++ g₂).Sublist (g₁ ++ x :: g₂) :=
    (List.Sublist.refl g₁).append (List.sublist_cons_self x g₂)
  refine h.set hg hchains hlength (fun y hy => h.placed i _ hg y (hsub.subset hy))
    (fun rest _ hs => ?_) ?_ count
  · exact hs.sublist (hsub.append (List.Sublist.refl rest))
  · exact (h.newer _ (List.mem_of_getElem? hg)).sublist hsub

/-! ## Rehashing -/

omit [DecidableEq κ] in
/-- Every bucket gets its entries in the order in which they are visited. -/
theorem getElem?_foldl_place {mask : ℕ} {N : List (List (Cell κ ν))} (l : List (Cell κ ν))
    (j : ℕ) :
    (l.foldl (place R mask) N)[j]? =
      N[j]?.map (· ++ l.filter fun x => R.hash x.2.1 &&& mask = j) := by
  induction l generalizing N with
  | nil => simp
  | cons x l ih =>
    rw [List.foldl_cons, ih, place, List.getElem?_modify]
    by_cases hj : R.hash x.2.1 &&& mask = j
    · simp [hj, Function.comp_def]
    · simp [hj]

theorem and_mask_of_le {a c h : ℕ} (hac : a ≤ c) :
    (h &&& (2 ^ c - 1)) &&& (2 ^ a - 1) = h &&& (2 ^ a - 1) := by
  simp only [Nat.and_two_pow_sub_one_eq_mod]
  exact Nat.mod_mod_of_dvd h (pow_dvd_pow 2 hac)

theorem Hung.pairwise_visited (h : Hung R kind t G) (n j : ℕ) :
    ((visited G n).filter fun x => R.hash x.2.1 &&& (t.capacity * 2 - 1) = j).Pairwise
      (Newer R kind) := by
  obtain ⟨b, -, hb⟩ := h.capacity
  have hnew : t.capacity * 2 - 1 = 2 ^ (b + 1) - 1 := by rw [hb, pow_succ]
  have hmask : t.mask = 2 ^ b - 1 := by rw [h.mask, hb]
  induction n with
  | zero => simp [visited]
  | succ n ih =>
    by_cases hn : n < G.length
    · have hg := List.getElem?_eq_getElem hn
      rw [visited_succ hg, List.filter_append, List.pairwise_append]
      refine ⟨(h.newer _ (List.getElem_mem hn)).filter _, ih, fun x hx y hy => ?_⟩
      -- the two entries would have been in one bucket
      rw [List.mem_filter, decide_eq_true_iff, hnew] at hx hy
      obtain ⟨c, hc, hyc⟩ := List.mem_flatten.mp hy.1
      obtain ⟨m, hm⟩ := List.mem_iff_getElem?.mp (List.mem_reverse.mp hc)
      rw [List.getElem?_take] at hm
      split_ifs at hm with hmn
      have hxi := h.placed n _ hg x hx.1
      have hyi := h.placed m c hm y hyc
      have hle : b ≤ b + 1 := Nat.le_succ b
      rw [hmask, ← and_mask_of_le hle, hx.2] at hxi
      rw [hmask, ← and_mask_of_le hle, hy.2] at hyi
      omega
    · have hsame : visited G (n + 1) = visited G n := by
        rw [visited, visited, List.take_of_length_le (by omega), List.take_of_length_le (by omega)]
      rw [hsame]
      exact ih

/-- **Rehashing keeps the entries** and doubles the number of buckets. -/
theorem rehash1_hung (h : Hung R kind t G) (hc : t.capacity < 2 ^ 60) :
    ∃ t' G', rehash1 R t = some t' ∧ Hung R kind t' G' ∧ G'.flatten.Perm G.flatten ∧
      t'.count = t.count ∧ t'.capacity = t.capacity * 2 := by
  obtain ⟨b, hb, hcap⟩ := h.capacity
  have hb' : b + 1 ≤ 60 := by
    have : 2 ^ b < 2 ^ 60 := hcap ▸ hc
    exact (Nat.pow_lt_pow_iff_right (by norm_num)).mp this
  have hnew : t.capacity * 2 = 2 ^ (b + 1) := by rw [hcap, pow_succ]
  have hle : t.capacity * 2 ≤ 2 ^ 60 := hnew ▸ Nat.pow_le_pow_right (by norm_num) hb'
  have hindex : ∀ k : κ, R.hash k &&& (t.capacity * 2 - 1) < t.capacity * 2 := fun k => by
    rw [hnew]
    exact and_mask_lt _ _
  have hvis : (visited G t.capacity).Perm G.flatten := by
    rw [← h.buckets_length, h.chains.length]
    exact visited_perm G
  obtain ⟨heap', buckets', hrun, -, hch⟩ := relinkBuckets_spec R (t.capacity * 2 - 1)
    (G := G) (N := List.replicate (t.capacity * 2) []) t.capacity
    (fun j p g _ hp hg => h.chains.seg hp hg) (chains_replicate t.heap (t.capacity * 2))
    (by simpa using h.separate.perm hvis.symm)
    (by simpa using hindex) h.buckets_length.ge h.chains.length
  have hbucket : ∀ (j : ℕ) (g : List (Cell κ ν)),
      ((visited G t.capacity).foldl (place R (t.capacity * 2 - 1))
        (List.replicate (t.capacity * 2) []))[j]? = some g →
      g = (visited G t.capacity).filter fun x => R.hash x.2.1 &&& (t.capacity * 2 - 1) = j := by
    intro j g hj
    rw [getElem?_foldl_place, List.getElem?_replicate] at hj
    split_ifs at hj
    · exact (Option.some.inj hj).symm
    · cases hj
  set G' := (visited G t.capacity).foldl (place R (t.capacity * 2 - 1))
    (List.replicate (t.capacity * 2) []) with hG'
  have hperm : G'.flatten.Perm G.flatten := by
    refine (flatten_foldl_place_perm R _ fun x _ => ?_).trans ?_
    · simpa using hindex x.2.1
    · simpa using hvis
  refine ⟨⟨heap', buckets', t.capacity * 2, t.count, loadThreshold (t.capacity * 2),
    t.capacity * 2 - 1⟩, G', ?_, ⟨hch, h.separate.perm hperm.symm, fun j g hj x hx => ?_,
    fun g hg => ?_, ⟨b + 1, hb', hnew⟩, ?_, rfl, rfl⟩, hperm, rfl, rfl⟩
  · simp only [rehash1, allocBuckets_eq hle, hrun, Option.bind_eq_bind, Option.bind_some,
      Option.pure_def]
  · rw [hbucket j g hj, List.mem_filter, decide_eq_true_iff] at hx
    exact hx.2
  · obtain ⟨j, hj⟩ := List.mem_iff_getElem?.mp hg
    rw [hbucket j g hj]
    exact h.pairwise_visited t.capacity j
  · simp [hch.length, hG']

/-! ## The operations -/

omit [DecidableEq κ] in
/-- The link of an entry, which may have been unlinked itself. -/
def Next (t : Table κ ν) (a : ℕ) (p : Option ℕ) : Prop := ∃ e, t.heap[a]? = some e ∧ e.next = p

/-- There has been no rehash. -/
structure SameSize (t t' : Table κ ν) : Prop where
  capacity : t'.capacity = t.capacity
  mask : t'.mask = t.mask
  threshold : t'.threshold = t.threshold

variable {key : κ} {g₁ g₂ : List (Cell κ ν)} {x : Cell κ ν}

omit [DecidableEq κ] in
theorem find?_eq_of_first {found : κ → Bool} (hx : found x.2.1 = true)
    (hfirst : ∀ y ∈ g₁, found y.2.1 = false) :
    (g₁ ++ x :: g₂).find? (fun y => found y.2.1) = some x := by
  rw [List.find?_append, List.find?_eq_none.mpr (by simpa using hfirst), Option.none_or,
    List.find?_cons, hx]

theorem Sound.get (h : Sound R kind t G) (key : κ) : ∃ value, get R kind t key = some value := by
  obtain ⟨p, g, hp, -, hseg, hlength⟩ := h.bucket key
  simp only [HashTable.get, hp, Option.bind_eq_bind, Option.bind_some,
    lookup_seg _ hseg hlength]
  cases hfind : g.find? fun x => R.found kind key x.2.1 with
  | none => exact ⟨none, rfl⟩
  | some x =>
    obtain ⟨next, hnext⟩ := hseg.getElem? (List.mem_of_find?_eq_some hfind)
    exact ⟨some x.2.2, by simp [hnext]⟩

theorem Sound.put_found (h : Sound R kind t G)
    (hg : G[R.hash key &&& t.mask]? = some (g₁ ++ x :: g₂))
    (hx : R.found kind key x.2.1 = true) (hfirst : ∀ y ∈ g₁, R.found kind key y.2.1 = false)
    (value : ν) :
    ∃ t', put R kind t key value = some t' ∧ SameSize t t' ∧ t'.count = t.count ∧
      Sound R kind t' (G.set (R.hash key &&& t.mask) (g₁ ++ (x.1, x.2.1, value) :: g₂)) ∧
      ∀ a p, Next t a p → Next t' a p := by
  obtain ⟨p, hp, hseg⟩ := h.pointer hg
  obtain ⟨e, he, hhung⟩ := h.toHung.replace hg value
  have hlength := length_flatten_set hg (g₁ ++ (x.1, x.2.1, value) :: g₂)
  refine ⟨{ t with heap := t.heap.set x.1 { e with value := value } }, ?_, ⟨rfl, rfl, rfl⟩, rfl,
    ⟨hhung, ?_, h.le_threshold⟩, fun a q ⟨e', ha, hq⟩ => ?_⟩
  · simp [put, hp, lookup_seg _ hseg (h.length_lt hg hseg), find?_eq_of_first hx hfirst, he]
  · have := h.count
    simp only [List.length_append, List.length_cons] at hlength
    show t.count = _
    omega
  · by_cases hax : x.1 = a
    · subst hax
      obtain rfl : e = e' := Option.some.inj (he.symm.trans ha)
      exact ⟨_, List.getElem?_set_self (List.getElem?_eq_some_iff.mp he).1, hq⟩
    · exact ⟨e', (List.getElem?_set_ne hax).trans ha, hq⟩

theorem Sound.put_new (h : Sound R kind t G) (hg : G[R.hash key &&& t.mask]? = some g)
    (hno : ∀ y ∈ g, R.found kind key y.2.1 = false) (hroom : t.count < t.threshold) (value : ν) :
    ∃ t', put R kind t key value = some t' ∧ SameSize t t' ∧ t'.count = t.count + 1 ∧
      Sound R kind t' (G.set (R.hash key &&& t.mask) ((t.heap.length, key, value) :: g)) ∧
      ∀ a p, Next t a p → Next t' a p := by
  obtain ⟨p, hp, hseg⟩ := h.pointer hg
  have hlength := length_flatten_set hg ((t.heap.length, key, value) :: g)
  have hnone : g.find? (fun y => R.found kind key y.2.1) = none :=
    List.find?_eq_none.mpr (by simpa using hno)
  refine ⟨{ t with
      heap := t.heap ++ [⟨key, value, p⟩]
      buckets := t.buckets.set (R.hash key &&& t.mask) (some t.heap.length)
      count := t.count + 1 }, ?_, ⟨rfl, rfl, rfl⟩, rfl,
    ⟨h.toHung.insert hp hg hno value (t.count + 1), ?_, hroom⟩, fun a q hnext => ?_⟩
  · simp [put, hp, lookup_seg _ hseg (h.length_lt hg hseg), hnone, Nat.not_lt.mpr hroom]
  · have := h.count
    simp only [List.length_cons] at hlength
    show t.count + 1 = _
    omega
  · obtain ⟨e, ha, hq⟩ := hnext
    have hlt := (List.getElem?_eq_some_iff.mp ha).1
    exact ⟨e, (List.getElem?_append_left hlt).trans ha, hq⟩

theorem Sound.remove_none (h : Sound R kind t G) (hg : G[R.hash key &&& t.mask]? = some g)
    (hno : ∀ y ∈ g, R.found kind key y.2.1 = false) : remove R kind t key = some (t, none) := by
  obtain ⟨p, hp, hseg⟩ := h.pointer hg
  rcases unlink_first (P := []) (R.found kind key) h.chains h.separate hg hseg
    (h.length_lt hg hseg) with ⟨-, hrun⟩ | ⟨d₁, y, d₂, -, -, hd, hy, -⟩
  · simp only [remove, hp, Option.bind_eq_bind, Option.bind_some]
    exact hrun
  · rw [hno y (by simp [hd])] at hy
    cases hy

omit [DecidableEq κ] in
theorem first_unique {found : κ → Bool} {d₁ d₂ : List (Cell κ ν)} {y : Cell κ ν}
    (h : g₁ ++ x :: g₂ = d₁ ++ y :: d₂) (hx : found x.2.1 = true) (hy : found y.2.1 = true)
    (hg : ∀ z ∈ g₁, found z.2.1 = false) (hd : ∀ z ∈ d₁, found z.2.1 = false) :
    g₁ = d₁ ∧ x = y ∧ g₂ = d₂ := by
  induction g₁ generalizing d₁ with
  | nil =>
    cases d₁ with
    | nil =>
      cases h
      exact ⟨rfl, rfl, rfl⟩
    | cons z d₁ =>
      obtain ⟨rfl, -⟩ := List.cons.inj h
      rw [hd x List.mem_cons_self] at hx
      cases hx
  | cons z g₁ ih =>
    cases d₁ with
    | nil =>
      obtain ⟨rfl, -⟩ := List.cons.inj h
      rw [hg z List.mem_cons_self] at hy
      cases hy
    | cons z' d₁ =>
      obtain ⟨rfl, htail⟩ := List.cons.inj h
      obtain ⟨rfl, hrest⟩ := ih htail (fun z hz => hg z (List.mem_cons_of_mem _ hz))
        fun z hz => hd z (List.mem_cons_of_mem _ hz)
      exact ⟨rfl, hrest⟩

/-- A remove that finds an entry. The entry itself keeps its link. -/
theorem Sound.remove_found (h : Sound R kind t G)
    (hg : G[R.hash key &&& t.mask]? = some (g₁ ++ x :: g₂))
    (hx : R.found kind key x.2.1 = true) (hfirst : ∀ y ∈ g₁, R.found kind key y.2.1 = false) :
    ∃ t', remove R kind t key = some (t', some x.2.2) ∧ SameSize t t' ∧
      t'.count + 1 = t.count ∧
      Sound R kind t' (G.set (R.hash key &&& t.mask) (g₁ ++ g₂)) ∧
      ∀ a p, (∀ y ∈ g₁, y.1 ≠ a) → Next t a p → Next t' a p := by
  obtain ⟨p, hp, hseg⟩ := h.pointer hg
  rcases unlink_first (P := []) (R.found kind key) h.chains h.separate hg hseg
    (h.length_lt hg hseg) with
    ⟨hno, -⟩ | ⟨d₁, y, d₂, heap', buckets', hd, hy, hdfirst, hrun, hlength, hframe, hchains⟩
  · rw [hno x (by simp)] at hx
    cases hx
  · obtain ⟨rfl, rfl, rfl⟩ := first_unique hd hx hy hfirst hdfirst
    have hflatten := length_flatten_set hg (g₁ ++ g₂)
    have hcount := h.count
    simp only [List.length_append, List.length_cons] at hflatten
    refine ⟨{ t with heap := heap', buckets := buckets', count := t.count - 1 }, ?_,
      ⟨rfl, rfl, rfl⟩, ?_, ⟨h.toHung.unlink hg hchains hlength (t.count - 1), ?_,
        (Nat.sub_le _ _).trans h.le_threshold⟩, fun a q ha ⟨e, he, hq⟩ => ?_⟩
    · simp only [remove, hp, Option.bind_eq_bind, Option.bind_some]
      exact hrun
    · show t.count - 1 + 1 = t.count
      omega
    · show t.count - 1 = _
      omega
    · exact ⟨e, (hframe a (by simpa using ha)).trans he, hq⟩

theorem sound_empty (heap : List (HashEntry κ ν)) {c : ℕ} (hc : ∃ b ≤ 60, c = 2 ^ b) :
    Sound R kind ⟨heap, allocBuckets c, c, 0, loadThreshold c, c - 1⟩ (List.replicate c []) := by
  have hle : c ≤ 2 ^ 60 := by
    obtain ⟨b, hb, rfl⟩ := hc
    exact Nat.pow_le_pow_right (by norm_num) hb
  have hnil : ∀ g ∈ List.replicate c ([] : List (Cell κ ν)), g = [] := fun g hg =>
    (List.mem_replicate.mp hg).2
  refine ⟨⟨?_, ?_, fun i g hi x hx => ?_, fun g hg => ?_, hc, ?_, rfl, rfl⟩, by simp,
    Nat.zero_le _⟩
  · rw [allocBuckets_eq hle]
    exact chains_replicate heap c
  · simp [Separate]
  · rw [hnil g (List.mem_of_getElem? hi)] at hx
    cases hx
  · rw [hnil g hg]
    exact List.Pairwise.nil
  · simp [allocBuckets_eq hle]

/-! ## Runs -/

omit [DecidableEq κ] in
theorem relinkChain_length {mask n : ℕ} {heap heap' : List (HashEntry κ ν)}
    {buckets buckets' : List (Option ℕ)} {e : Option ℕ}
    (h : relinkChain R mask n heap buckets e = some (heap', buckets')) :
    buckets'.length = buckets.length := by
  induction n generalizing heap buckets e with
  | zero => cases h
  | succ n ih =>
    cases e with
    | none =>
      cases h
      rfl
    | some a =>
      obtain ⟨entry, -, hlink⟩ := Option.bind_eq_some_iff.mp h
      obtain ⟨bucket, -, hlink⟩ := Option.bind_eq_some_iff.mp hlink
      cases bucket with
      | none =>
        obtain ⟨last, hpure, hrest⟩ := Option.bind_eq_some_iff.mp hlink
        cases hpure
        obtain ⟨_, -, hrest⟩ := Option.bind_eq_some_iff.mp hrest
        exact (ih hrest).trans List.length_set
      | some dest =>
        obtain ⟨dest', -, hlink⟩ := Option.bind_eq_some_iff.mp hlink
        obtain ⟨d, -, hlink⟩ := Option.bind_eq_some_iff.mp hlink
        obtain ⟨last, hpure, hrest⟩ := Option.bind_eq_some_iff.mp hlink
        cases hpure
        obtain ⟨_, -, hrest⟩ := Option.bind_eq_some_iff.mp hrest
        exact ih hrest

omit [DecidableEq κ] in
theorem relinkBuckets_length {mask n : ℕ} {old : List (Option ℕ)}
    {heap heap' : List (HashEntry κ ν)} {buckets buckets' : List (Option ℕ)}
    (h : relinkBuckets R mask old n heap buckets = some (heap', buckets')) :
    buckets'.length = buckets.length := by
  induction n generalizing heap buckets with
  | zero =>
    cases h
    rfl
  | succ n ih =>
    simp only [relinkBuckets, Option.bind_eq_bind, Option.bind_eq_some_iff] at h
    obtain ⟨e, -, ⟨heap₁, buckets₁⟩, hchain, hrest⟩ := h
    rw [ih hrest, relinkChain_length hchain]

omit [DecidableEq κ] in
theorem rehash1_full {t' : Table κ ν} (hcapacity : t.capacity = 2 ^ 60)
    (h : rehash1 R t = some t') : t'.buckets = [] := by
  simp only [rehash1, Option.bind_eq_bind, Option.bind_eq_some_iff, Option.pure_def,
    Option.some.injEq] at h
  obtain ⟨⟨heap', buckets'⟩, hrelink, rfl⟩ := h
  have hlength := relinkBuckets_length hrelink
  rw [hcapacity] at hlength
  exact List.eq_nil_of_length_eq_zero (hlength.trans (by simp [allocBuckets, allocated]))

theorem Sound.put_full (h : Sound R kind t G) (hg : G[R.hash key &&& t.mask]? = some g)
    (hno : ∀ y ∈ g, R.found kind key y.2.1 = false) (hfull : ¬t.count < t.threshold) {value : ν}
    {t' : Table κ ν} (hput : put R kind t key value = some t') : ∃ G', Sound R kind t' G' := by
  obtain ⟨p, hp, hseg⟩ := h.pointer hg
  have hnone : g.find? (fun y => R.found kind key y.2.1) = none :=
    List.find?_eq_none.mpr (by simpa using hno)
  have hgt : t.count + 1 > t.threshold := by omega
  simp only [put, hp, Option.bind_eq_bind, Option.bind_some,
    lookup_seg _ hseg (h.length_lt hg hseg), hnone, Option.map_none, if_pos hgt,
    Option.bind_eq_some_iff, Option.pure_def, Option.some.injEq] at hput
  obtain ⟨t₂, hrehash, next, hnext, rfl⟩ := hput
  obtain ⟨b, hb, hcapacity⟩ := h.capacity
  have hhung : Hung R kind { t with count := t.count + 1 } G := ⟨h.chains, h.separate, h.placed,
    h.newer, h.capacity, h.buckets_length, h.mask, h.threshold⟩
  by_cases hlt : t.capacity < 2 ^ 60
  · obtain ⟨t₃, G', hrehash', hhung', hperm, hcount, hcap⟩ := rehash1_hung hhung hlt
    obtain rfl := Option.some.inj (hrehash.symm.trans hrehash')
    have hcount : t₂.count = t.count + 1 := hcount
    have hcap : t₂.capacity = t.capacity * 2 := hcap
    obtain ⟨p', g', hp', hg', -⟩ := hhung'.bucket key
    obtain rfl := Option.some.inj (hnext.symm.trans hp')
    have hno' : ∀ y ∈ g', R.found kind key y.2.1 = false := by
      intro y hy
      -- an entry with this key would have been in the bucket before
      obtain ⟨c, hc, hyc⟩ := List.mem_flatten.mp
        (hperm.mem_iff.mp (mem_flatten_of_getElem? hg' hy))
      obtain ⟨j, hj⟩ := List.mem_iff_getElem?.mp hc
      have hplaced := h.placed j c hj y hyc
      have hplaced' := hhung'.placed _ g' hg' y hy
      have hmask : t.mask = 2 ^ b - 1 := by rw [h.mask, hcapacity]
      have hmask' : t₂.mask = 2 ^ (b + 1) - 1 := by rw [hhung'.mask, hcap, hcapacity, pow_succ]
      rw [hmask'] at hplaced'
      have hle : b ≤ b + 1 := Nat.le_succ b
      have hindex := congrArg (· &&& (2 ^ b - 1)) hplaced'
      simp only [and_mask_of_le hle] at hindex
      rw [← hmask, hplaced] at hindex
      rw [hindex, hg] at hj
      obtain rfl := Option.some.inj hj
      exact hno y hyc
    have hlength := length_flatten_set hg' ((t₂.heap.length, key, value) :: g')
    refine ⟨_, hhung'.insert hnext hg' hno' value t₂.count, ?_, ?_⟩
    · have hold := h.count
      have hnew := hperm.length_eq
      simp only [List.length_cons] at hlength
      show t₂.count = _
      rw [hcount]
      omega
    · have hle := h.le_threshold
      have hth := h.threshold
      have hth' := hhung'.threshold
      have hpos : 0 < t.capacity := by
        rw [hcapacity]
        positivity
      show t₂.count ≤ t₂.threshold
      rw [hth', hcap, hcount]
      unfold loadThreshold at hth ⊢
      omega
  · have hpow : 2 ^ b ≤ 2 ^ 60 := Nat.pow_le_pow_right (by norm_num) hb
    have heq : ({ t with count := t.count + 1 } : Table κ ν).capacity = 2 ^ 60 := by
      show t.capacity = 2 ^ 60
      omega
    rw [rehash1_full heq hrehash] at hnext
    cases hnext

/-- **One operation.** -/
theorem sound_step (h : Sound R kind t G) {op : Op κ ν} {t' : Table κ ν}
    (hstep : step R kind t op = some t') : ∃ G', Sound R kind t' G' := by
  cases op with
  | puthash key value =>
    obtain ⟨p, g, -, hg, -⟩ := h.bucket key
    cases hfind : g.find? fun y => R.found kind key y.2.1 with
    | some x =>
      obtain ⟨hx, g₁, g₂, rfl, hfirst⟩ := List.find?_eq_some_iff_append.mp hfind
      obtain ⟨t₁, hput, -, -, hsound, -⟩ := h.put_found hg hx (by simpa using hfirst) value
      obtain rfl := Option.some.inj (hstep.symm.trans hput)
      exact ⟨_, hsound⟩
    | none =>
      have hno : ∀ y ∈ g, R.found kind key y.2.1 = false := by
        simpa using List.find?_eq_none.mp hfind
      by_cases hroom : t.count < t.threshold
      · obtain ⟨t₁, hput, -, -, hsound, -⟩ := h.put_new hg hno hroom value
        obtain rfl := Option.some.inj (hstep.symm.trans hput)
        exact ⟨_, hsound⟩
      · exact h.put_full hg hno hroom hstep
  | remhash key =>
    obtain ⟨⟨t₁, value⟩, hremove, rfl⟩ := Option.map_eq_some_iff.mp hstep
    obtain ⟨p, g, -, hg, -⟩ := h.bucket key
    cases hfind : g.find? fun y => R.found kind key y.2.1 with
    | some x =>
      obtain ⟨hx, g₁, g₂, rfl, hfirst⟩ := List.find?_eq_some_iff_append.mp hfind
      obtain ⟨t₂, hfound, -, -, hsound, -⟩ := h.remove_found hg hx (by simpa using hfirst)
      obtain ⟨rfl, -⟩ := Prod.mk.inj (Option.some.inj (hremove.symm.trans hfound))
      exact ⟨_, hsound⟩
    | none =>
      have hnone := h.remove_none hg (by simpa using List.find?_eq_none.mp hfind)
      obtain ⟨rfl, -⟩ := Prod.mk.inj (Option.some.inj (hremove.symm.trans hnone))
      exact ⟨G, h⟩
  | clrhash =>
    cases hstep
    rw [clear, h.threshold, h.mask]
    exact ⟨_, sound_empty t.heap h.capacity⟩
  | gethash key =>
    obtain ⟨value, -, rfl⟩ := Option.map_eq_some_iff.mp hstep
    exact ⟨G, h⟩

omit [DecidableEq κ] in
structure Unbacked (t : Table κ ν) : Prop where
  buckets : t.buckets = []
  pos : 0 < t.capacity
  allocated : allocated t.capacity = 0

theorem unbacked_step (h : Unbacked t) {op : Op κ ν} {t' : Table κ ν}
    (hstep : step R kind t op = some t') : Unbacked t' := by
  have hnone : ∀ j : ℕ, t.buckets[j]? = none := by
    intro j
    rw [h.buckets]
    rfl
  cases op with
  | puthash key value => simp [step, put, hnone] at hstep
  | remhash key => simp [step, remove, hnone] at hstep
  | clrhash =>
    cases hstep
    refine ⟨?_, h.pos, h.allocated⟩
    show allocBuckets t.capacity = []
    rw [allocBuckets, h.allocated, List.replicate_zero]
  | gethash key => simp [step, HashTable.get, hnone] at hstep

theorem sound_init {size : ℕ} (hsize : size ≤ 2 ^ 60) (hinit : init size = some t) :
    ∃ G, Sound R kind t G := by
  obtain ⟨c, hc, -, hlt, hcapacity⟩ :=
    calculateInitialCapacity_eq (show size ≤ 2 ^ 61 by omega)
  have hc' : c ≤ 60 := by
    by_contra hcon
    obtain rfl : c = 61 := by omega
    have := hlt (by norm_num)
    omega
  simp only [init, hcapacity, Option.bind_eq_bind, Option.bind_some, Option.pure_def,
    Option.some.injEq] at hinit
  subst hinit
  exact ⟨_, sound_empty [] ⟨c, hc', rfl⟩⟩

omit [DecidableEq κ] in
theorem unbacked_init {size : ℕ} (hsize : ¬size ≤ 2 ^ 60) (hinit : init size = some t) :
    Unbacked t := by
  simp only [init, Option.bind_eq_bind, Option.bind_eq_some_iff, Option.pure_def,
    Option.some.injEq] at hinit
  obtain ⟨c, hc, rfl⟩ := hinit
  have hallocated := allocated_eq_zero (Nat.not_le.mp hsize) hc
  obtain ⟨hle, -⟩ := doubleUntil_eq_some (b := 0) (by omega) (by norm_num) hc
  refine ⟨?_, by show 0 < c; omega, hallocated⟩
  show allocBuckets c = []
  rw [allocBuckets, hallocated, List.replicate_zero]

/-- **A run** from a new table. -/
theorem sound_of_run {size : ℕ} {ops : List (Op κ ν)}
    (hrun : ((init size).bind fun t => run R kind t ops) = some t) :
    if size ≤ 2 ^ 60 then ∃ G, Sound R kind t G else Unbacked t := by
  obtain ⟨t₀, hinit, hops⟩ := Option.bind_eq_some_iff.mp hrun
  have hstart : if size ≤ 2 ^ 60 then ∃ G, Sound R kind t₀ G else Unbacked t₀ := by
    split_ifs with hsize
    · exact sound_init hsize hinit
    · exact unbacked_init hsize hinit
  clear hrun hinit
  induction ops generalizing t₀ with
  | nil =>
    cases hops
    exact hstart
  | cons op ops ih =>
    obtain ⟨t₁, hstep, hops⟩ := Option.bind_eq_some_iff.mp hops
    refine ih t₁ hops ?_
    split_ifs with hsize
    · rw [if_pos hsize] at hstart
      obtain ⟨G, hsound⟩ := hstart
      exact sound_step hsound hstep
    · rw [if_neg hsize] at hstart
      exact unbacked_step hstart hstep

end Xcl.HashTable
