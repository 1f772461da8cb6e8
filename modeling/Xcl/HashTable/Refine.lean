import Xcl.HashTable.Chain

/-!
# Hash tables refine finite maps

* `Layout`: what the buckets hold when the table holds the map `m`;
* `Refines`, `Fits`, **`refines_iff`**: every run of operations refines the run on finite maps,
  exactly when the bucket vector of the first table has a size below `2 ^ 64` bytes.
-/

namespace Xcl.HashTable

open MapMod

variable {κ ν : Type} (R : Runtime κ) (kind : Kind)

/-- What the tables rely on: the test is an equivalence relation, and equivalent keys have the
same hash code. -/
structure Lawful : Prop where
  test : MapMod.Lawful (R.test kind)
  hash : ∀ {a b}, R.test kind a b = true → R.hash a = R.hash b

/-- The buckets `G` hold the map `m`. -/
structure Layout (mask : ℕ) (G : List (List (Cell κ ν))) (m : κ → Option ν) : Prop where
  separate : Separate G.flatten
  placed : ∀ (i : ℕ) g, G[i]? = some g → ∀ x ∈ g, R.hash x.2.1 &&& mask = i
  represents : Represents (R.test kind) (G.flatten.map Prod.snd) m

structure Shape (t : Table κ ν) (G : List (List (Cell κ ν))) (m : κ → Option ν) : Prop where
  chains : Chains t.heap t.buckets G
  layout : Layout R kind t.mask G m
  capacity : ∃ b ≤ 60, t.capacity = 2 ^ b
  buckets_length : t.buckets.length = t.capacity
  mask : t.mask = t.capacity - 1
  threshold : t.threshold = loadThreshold t.capacity

structure Inv (t : Table κ ν) (G : List (List (Cell κ ν))) (m : κ → Option ν) : Prop
    extends Shape R kind t G m where
  count : t.count = G.flatten.length
  le_threshold : t.count ≤ t.threshold

variable {R kind} {t : Table κ ν} {G : List (List (Cell κ ν))} {g : List (Cell κ ν)}
  {m : κ → Option ν} {mask : ℕ}

/-! ## The bucket of a key -/

theorem Shape.index_lt (h : Shape R kind t G m) (k : κ) :
    R.hash k &&& t.mask < t.buckets.length := by
  obtain ⟨b, -, hb⟩ := h.capacity
  rw [h.mask, h.buckets_length, hb]
  exact and_mask_lt _ b

theorem Shape.bucket (h : Shape R kind t G m) (k : κ) : ∃ p g,
    t.buckets[R.hash k &&& t.mask]? = some p ∧ G[R.hash k &&& t.mask]? = some g ∧
      Seg t.heap p g none ∧ g.length < t.fuel := by
  obtain ⟨p, g, hp, hg, hseg⟩ := h.chains.getElem? (h.index_lt k)
  obtain ⟨rest, hperm, -⟩ := Buckets.exists_flatten_perm hg
  exact ⟨p, g, hp, hg, hseg, Nat.lt_succ_of_le
    (hseg.length_le (List.pairwise_append.mp (h.layout.separate.perm hperm)).1)⟩

theorem Layout.mem_bucket (hR : Lawful R kind) (h : Layout R kind mask G m) {key : κ}
    (hg : G[R.hash key &&& mask]? = some g) {x : Cell κ ν}
    (hx : x ∈ G.flatten) (hk : R.test kind key x.2.1 = true) : x ∈ g := by
  obtain ⟨g', hg', hx'⟩ := List.mem_flatten.mp hx
  obtain ⟨j, hj⟩ := List.mem_iff_getElem?.mp hg'
  have hpl := h.placed j g' hj x hx'
  rw [← hR.hash hk] at hpl
  rw [hpl, hj] at hg
  obtain rfl : g' = g := by simpa using hg
  exact hx'

theorem Layout.not_found (hR : Lawful R kind) (h : Layout R kind mask G m) {key : κ}
    (hg : G[R.hash key &&& mask]? = some g) (hno : ∀ x ∈ g, R.test kind key x.2.1 = false) :
    ∀ x ∈ G.flatten.map Prod.snd, R.test kind key x.1 = false := by
  intro y hy
  obtain ⟨x, hx, rfl⟩ := List.mem_map.mp hy
  by_contra hk
  rw [Bool.not_eq_false] at hk
  exact absurd (hno x (h.mem_bucket hR hg hx hk)) (by simp [hk])

theorem separate_iff {l : List (Cell κ ν)} : Separate l ↔ (l.map Prod.fst).Nodup :=
  List.pairwise_map.symm

theorem Layout.set (hR : Lawful R kind) (h : Layout R kind mask G m) {i : ℕ}
    (hg : G[i]? = some g) {g' : List (Cell κ ν)} {m' : κ → Option ν}
    (hplaced : ∀ x ∈ g', R.hash x.2.1 &&& mask = i)
    (hsep : ∀ rest, (∀ x ∈ rest, x ∈ G.flatten) → Separate (g ++ rest) → Separate (g' ++ rest))
    (hrep : ∀ rest, (G.flatten.map Prod.snd).Perm (g.map Prod.snd ++ rest) →
      Represents (R.test kind) (g.map Prod.snd ++ rest) m →
      Represents (R.test kind) (g'.map Prod.snd ++ rest) m') :
    Layout R kind mask (G.set i g') m' := by
  obtain ⟨rest, hperm, hset, -⟩ := Buckets.exists_flatten_perm hg
  refine ⟨?_, fun j c hj x hx => ?_, ?_⟩
  · exact (hsep rest (fun x hx => hperm.mem_iff.mpr (List.mem_append_right _ hx))
      (h.separate.perm hperm)).perm (hset g').symm
  · by_cases hji : j = i
    · subst hji
      rw [List.getElem?_set] at hj
      simp only [if_true] at hj
      split_ifs at hj
      obtain rfl : g' = c := by simpa using hj
      exact hplaced x hx
    · rw [List.getElem?_set_ne (Ne.symm hji)] at hj
      exact h.placed j c hj x hx
  · have hp : (G.flatten.map Prod.snd).Perm (g.map Prod.snd ++ rest.map Prod.snd) := by
      simpa using hperm.map Prod.snd
    refine (hrep (rest.map Prod.snd) hp (h.represents.perm hR.test hp)).perm hR.test ?_
    simpa using ((hset g').map Prod.snd).symm

/-! ## Rehashing -/

theorem allocBuckets_eq {c : ℕ} (h : c ≤ 2 ^ 60) : allocBuckets c = List.replicate c none := by
  rw [allocBuckets, allocated_eq h]

theorem chains_replicate (heap : List (HashEntry κ ν)) (c : ℕ) :
    Chains heap (List.replicate c none) (List.replicate c []) where
  length := by simp
  seg {i p g} hp hg := by
    rw [List.getElem?_replicate] at hp hg
    split_ifs at hp hg
    obtain rfl : none = p := by simpa using hp
    obtain rfl : [] = g := by simpa using hg
    rfl

theorem placed_foldl_place {N : List (List (Cell κ ν))}
    (hN : ∀ (i : ℕ) c, N[i]? = some c → ∀ x ∈ c, R.hash x.2.1 &&& mask = i) (g : List (Cell κ ν)) :
    ∀ (i : ℕ) c, (g.foldl (place R mask) N)[i]? = some c → ∀ x ∈ c, R.hash x.2.1 &&& mask = i := by
  induction g generalizing N with
  | nil => exact hN
  | cons y g ih =>
    refine ih fun i c hi x hx => ?_
    rw [place, List.getElem?_modify] at hi
    split_ifs at hi with heq
    · obtain ⟨c', hc', rfl⟩ := Option.map_eq_some_iff.mp hi
      rcases List.mem_append.mp hx with hx | hx
      · exact hN i c' hc' x hx
      · rw [List.mem_singleton.mp hx, heq]
    · exact hN i c (by simpa using hi) x hx

theorem visited_perm (G : List (List (Cell κ ν))) : (visited G G.length).Perm G.flatten := by
  rw [visited, List.take_length]
  exact (List.reverse_perm G).flatten

/-- **Rehashing keeps the entries** and doubles the number of buckets. -/
theorem rehash1_shape (hR : Lawful R kind) (h : Shape R kind t G m) (hc : t.capacity < 2 ^ 60) :
    ∃ t' G', rehash1 R t = some t' ∧ Shape R kind t' G' m ∧ G'.flatten.Perm G.flatten ∧
      t'.heap.length = t.heap.length ∧ t'.count = t.count ∧ t'.capacity = t.capacity * 2 := by
  obtain ⟨b, hb, hcap⟩ := h.capacity
  have hb' : b + 1 ≤ 60 := by
    have : 2 ^ b < 2 ^ 60 := hcap ▸ hc
    exact (Nat.pow_lt_pow_iff_right (by norm_num)).mp this
  have hnew : t.capacity * 2 = 2 ^ (b + 1) := by rw [hcap, pow_succ]
  have hle : t.capacity * 2 ≤ 2 ^ 60 := hnew ▸ Nat.pow_le_pow_right (by norm_num) hb'
  have hindex : ∀ k : κ, R.hash k &&& (t.capacity * 2 - 1) < t.capacity * 2 := fun k => by
    rw [hnew]
    exact and_mask_lt _ _
  have hvis : (visited G t.capacity).Perm G.flatten := by
    rw [← h.buckets_length, h.chains.length]
    exact visited_perm G
  obtain ⟨heap', buckets', hrun, hhl, hch⟩ := relinkBuckets_spec R (t.capacity * 2 - 1)
    (G := G) (N := List.replicate (t.capacity * 2) []) t.capacity
    (fun j p g _ hp hg => h.chains.seg hp hg) (chains_replicate t.heap (t.capacity * 2))
    (by simpa using h.layout.separate.perm hvis.symm)
    (by simpa using hindex) h.buckets_length.ge h.chains.length
  set G' := (visited G t.capacity).foldl (place R (t.capacity * 2 - 1))
    (List.replicate (t.capacity * 2) []) with hG'
  have hperm : G'.flatten.Perm G.flatten := by
    refine (flatten_foldl_place_perm R _ fun x _ => ?_).trans ?_
    · simpa using hindex x.2.1
    · simpa using hvis
  refine ⟨⟨heap', buckets', t.capacity * 2, t.count, loadThreshold (t.capacity * 2),
    t.capacity * 2 - 1⟩, G', ?_, ⟨hch, ⟨h.layout.separate.perm hperm.symm, ?_,
    h.layout.represents.perm hR.test (hperm.symm.map _)⟩, ⟨b + 1, hb', hnew⟩, ?_, rfl, rfl⟩, hperm,
    hhl, rfl, rfl⟩
  · simp only [rehash1, allocBuckets_eq hle, hrun, Option.bind_eq_bind, Option.bind_some,
      Option.pure_def]
  · refine placed_foldl_place (fun i c hi x hx => ?_) _
    rw [List.getElem?_replicate] at hi
    split_ifs at hi
    obtain rfl : [] = c := by simpa using hi
    simp at hx
  · simp [hch.length, hG']

/-! ## The operations -/

/-- The addresses in the buckets are addresses of the store. -/
theorem Shape.lt_length (h : Shape R kind t G m) {x : Cell κ ν} (hx : x ∈ G.flatten) :
    x.1 < t.heap.length := by
  obtain ⟨g, hg, hx⟩ := List.mem_flatten.mp hx
  obtain ⟨i, hi⟩ := List.mem_iff_getElem?.mp hg
  obtain ⟨p, g', -, hg', hseg⟩ := h.chains.getElem? (i := i) (by
    rw [h.chains.length]
    exact (List.getElem?_eq_some_iff.mp hi).1)
  obtain rfl : g = g' := by simpa [hi] using hg'
  exact hseg.lt_length hx

/-- The end of `put`: a new entry becomes the first one of its bucket. -/
theorem Shape.insert (hR : Lawful R kind) (h : Shape R kind t G m) (key : κ) (value : ν)
    (hno : ∀ x ∈ G.flatten.map Prod.snd, R.test kind key x.1 = false) :
    ∃ next G', t.buckets[R.hash key &&& t.mask]? = some next ∧
      Shape R kind { t with
        heap := t.heap ++ [⟨key, value, next⟩]
        buckets := t.buckets.set (R.hash key &&& t.mask) (some t.heap.length) }
        G' (MapMod.put (R.test kind) m key value) ∧
      G'.flatten.length = G.flatten.length + 1 := by
  obtain ⟨p, g, hp, hg, hseg, -⟩ := h.bucket key
  obtain ⟨rest, hperm, hset, -⟩ := Buckets.exists_flatten_perm hg
  have hold : ∀ x ∈ G.flatten, (t.heap ++ [⟨key, value, p⟩])[x.1]? = t.heap[x.1]? := fun x hx =>
    List.getElem?_append_left (h.lt_length hx)
  refine ⟨p, G.set (R.hash key &&& t.mask) ((t.heap.length, key, value) :: g), hp,
    ⟨?_, ?_, h.capacity, by simpa using h.buckets_length, h.mask, h.threshold⟩, ?_⟩
  · refine h.chains.set ⟨rfl, p, by simp, hseg.congr fun x hx => ?_⟩ fun j c _ hc x hx => ?_
    · exact hold x (List.mem_flatten.mpr ⟨g, List.mem_of_getElem? hg, hx⟩)
    · exact hold x (List.mem_flatten.mpr ⟨c, List.mem_of_getElem? hc, hx⟩)
  · refine h.layout.set hR hg (fun x hx => ?_) (fun rest hr hs => ?_) fun rest hr hr' => ?_
    · rcases List.mem_cons.mp hx with rfl | hx
      · rfl
      · exact h.layout.placed _ g hg x hx
    · refine List.pairwise_cons.mpr ⟨fun x hx => Nat.ne_of_gt (h.lt_length ?_), hs⟩
      rcases List.mem_append.mp hx with hx | hx
      · exact List.mem_flatten.mpr ⟨g, List.mem_of_getElem? hg, hx⟩
      · exact hr x hx
    · exact hr'.cons hR.test fun x hx => hno x (hr.mem_iff.mpr hx)
  · rw [(hset _).length_eq, hperm.length_eq]
    simp

variable [DecidableEq κ]

/-- The word comparison of `EqualHashTable` changes nothing. -/
theorem Lawful.found_eq (h : Lawful R kind) (key : κ) : R.found kind key = R.test kind key := by
  funext k
  cases kind with
  | eql => rfl
  | equal =>
    simp only [Runtime.found, Runtime.test, Bool.or_eq_right_iff_imp, beq_iff_eq]
    rintro rfl
    exact h.test.refl key

/-- **`get` returns what the map holds.** -/
theorem get_inv (hR : Lawful R kind) (h : Shape R kind t G m) (key : κ) :
    get R kind t key = some (m key) := by
  obtain ⟨p, g, hp, hg, hseg, hlen⟩ := h.bucket key
  simp only [get, hp, Option.bind_eq_bind, Option.bind_some, lookup_seg _ hseg hlen,
    hR.found_eq]
  cases hf : g.find? fun x => R.test kind key x.2.1 with
  | none =>
    have hno := List.find?_eq_none.mp hf
    have := h.layout.represents.eq_none (h.layout.not_found hR hg fun x hx => by
      simpa using hno x hx)
    simp [this]
  | some x =>
    have hx := List.mem_of_find?_eq_some hf
    have hk : R.test kind key x.2.1 = true := by simpa using List.find?_some hf
    obtain ⟨next, hn⟩ := hseg.getElem? hx
    have hm : x ∈ G.flatten := List.mem_flatten.mpr ⟨g, List.mem_of_getElem? hg, hx⟩
    have := h.layout.represents.eq_some (List.mem_map.mpr ⟨x, hm, rfl⟩) hk
    simp [hn, this]

omit [DecidableEq κ] in
theorem Shape.replace (hR : Lawful R kind) (h : Shape R kind t G m) {key : κ} (value : ν)
    (hg : G[R.hash key &&& t.mask]? = some g) {x : Cell κ ν}
    (hf : g.find? (fun x => R.test kind key x.2.1) = some x) :
    ∃ e G', t.heap[x.1]? = some e ∧
      Shape R kind { t with heap := t.heap.set x.1 { e with value := value } } G'
        (MapMod.put (R.test kind) m key value) ∧ G'.flatten.length = G.flatten.length := by
  obtain ⟨hk, g₁, g₂, rfl, -⟩ := List.find?_eq_some_iff_append.mp hf
  obtain ⟨a, k', v'⟩ := x
  obtain ⟨p, g', hp, hg', hseg, -⟩ := h.bucket key
  obtain rfl : g₁ ++ (a, k', v') :: g₂ = g' := by simpa [hg] using hg'
  obtain ⟨e, he⟩ := hseg.getElem? (x := (a, k', v')) (by simp)
  obtain ⟨rest, hperm, hset, hrest⟩ := Buckets.exists_flatten_perm hg
  -- the address of the entry is not in any other place
  have hsep : Separate ((a, k', v') :: (g₁ ++ g₂ ++ rest)) := by
    refine h.layout.separate.perm (hperm.trans ?_)
    simp
  have hne : ∀ y ∈ g₁ ++ g₂ ++ rest, y.1 ≠ a := fun y hy =>
    Ne.symm ((List.pairwise_cons.mp hsep).1 y hy)
  refine ⟨_, G.set (R.hash key &&& t.mask) (g₁ ++ (a, k', value) :: g₂), he,
    ⟨?_, ?_, h.capacity, h.buckets_length, h.mask, h.threshold⟩, ?_⟩
  · have hset' : t.buckets.set (R.hash key &&& t.mask) p = t.buckets := by
      obtain ⟨hlt, hpe⟩ := List.getElem?_eq_some_iff.mp hp
      rw [← hpe]
      exact List.set_getElem_self hlt
    rw [← hset']
    refine h.chains.set (hseg.setValue (fun y hy => hne y (List.mem_append_left _ hy)) he value)
      fun j c hj hc y hy => ?_
    rw [List.getElem?_set_ne (Ne.symm (hne y (List.mem_append_right _ (hrest j c hj hc y hy))))]
  · refine h.layout.set hR hg (fun y hy => ?_) (fun rest _ hs => ?_) fun rest _ hr => ?_
    · have hpl := h.layout.placed _ _ hg
      rcases List.mem_append.mp hy with hy | hy
      · exact hpl y (by simp [hy])
      · rcases List.mem_cons.mp hy with rfl | hy
        · exact hpl (a, k', v') (by simp)
        · exact hpl y (by simp [hy])
    · rw [separate_iff] at hs ⊢
      simpa using hs
    · simp only [List.map_append, List.map_cons, List.append_assoc, List.cons_append] at hr ⊢
      exact hr.replace hR.test hk
  · rw [(hset _).length_eq, hperm.length_eq]
    simp

/-- **`put` adds the key or replaces its value.** -/
theorem put_inv (hR : Lawful R kind) (h : Inv R kind t G m) (hcount : t.count < 3 * 2 ^ 58)
    (key : κ) (value : ν) :
    ∃ t' G', put R kind t key value = some t' ∧
      Inv R kind t' G' (MapMod.put (R.test kind) m key value) := by
  obtain ⟨p, g, hp, hg, hseg, hlen⟩ := h.bucket key
  simp only [put, hp, Option.bind_eq_bind, Option.bind_some, lookup_seg _ hseg hlen,
    hR.found_eq]
  cases hf : g.find? fun x => R.test kind key x.2.1 with
  | some x =>
    obtain ⟨e, G', he, hsh, hl⟩ := h.toShape.replace hR value hg hf
    refine ⟨_, G', by simp [he], hsh, ?_, h.le_threshold⟩
    rw [hl]
    exact h.count
  | none =>
    have hno := h.layout.not_found hR hg fun x hx => by
      simpa using List.find?_eq_none.mp hf x hx
    have hsh : Shape R kind { t with count := t.count + 1 } G m := ⟨h.chains, h.layout,
      h.capacity, h.buckets_length, h.mask, h.threshold⟩
    simp only [Option.map_none, Option.pure_def]
    split_ifs with hth
    · -- the table is full, and small enough to be doubled
      have hfull : t.threshold ≤ t.count := by simpa using Nat.lt_succ_iff.mp hth
      have hcap : t.capacity < 2 ^ 60 := by
        have := h.threshold
        unfold loadThreshold at this
        omega
      obtain ⟨t₁, G₁, hre, hsh₁, hperm, -, hc₁, hcap₁⟩ := rehash1_shape hR hsh hcap
      obtain ⟨next, G', hnext, hsh', hl⟩ := hsh₁.insert hR key value fun x hx =>
        hno x ((hperm.map Prod.snd).mem_iff.mp hx)
      refine ⟨_, G', by simp [hre, hnext], hsh', ?_, ?_⟩
      · rw [hl, hperm.length_eq, ← h.count]
        exact hc₁
      · have hpos : 0 < t.capacity := by
          obtain ⟨b, -, hb⟩ := h.capacity
          rw [hb]
          positivity
        have := h.le_threshold
        have hth' := h.threshold
        simp only [hc₁, hsh₁.threshold, hcap₁]
        unfold loadThreshold at hth' ⊢
        omega
    · obtain ⟨next, G', hnext, hsh', hl⟩ := hsh.insert hR key value hno
      simp only [hp, Option.some.injEq] at hnext
      subst hnext
      refine ⟨_, G', by simp [hp], hsh', ?_, by simpa using hth⟩
      rw [hl, ← h.count]

omit [DecidableEq κ] in
/-- **The loop of `remove`.** `P` are the entries it has passed, the last of which is `last`. It
changes the link of the entry before the one that it finds. -/
theorem unlink_first (found : κ → Bool) (hch : Chains t.heap t.buckets G)
    (hsep : Separate G.flatten) {i n : ℕ} {P : List (Cell κ ν)} {e : Option ℕ}
    (hG : G[i]? = some (P ++ g)) (he : Seg t.heap e g none) (hn : g.length < n) :
    (∀ x ∈ g, found x.2.1 = false) ∧
        unlink i found n t (P.getLast?.map Prod.fst) e = some (t, none) ∨
      ∃ g₁ x g₂ heap' buckets', g = g₁ ++ x :: g₂ ∧ found x.2.1 = true ∧
        (∀ y ∈ g₁, found y.2.1 = false) ∧
        unlink i found n t (P.getLast?.map Prod.fst) e = some
          ({ t with heap := heap', buckets := buckets', count := t.count - 1 }, some x.2.2) ∧
        buckets'.length = t.buckets.length ∧
        (∀ b, (∀ y ∈ P ++ g₁, y.1 ≠ b) → heap'[b]? = t.heap[b]?) ∧
        Chains heap' buckets' (G.set i (P ++ g₁ ++ g₂)) := by
  induction g generalizing n P e with
  | nil =>
    obtain ⟨n, rfl⟩ : ∃ m, n = m + 1 := ⟨n - 1, by simp at hn; omega⟩
    obtain rfl : e = none := he
    exact .inl ⟨by simp, rfl⟩
  | cons x g ih =>
    obtain ⟨n, rfl⟩ : ∃ m, n = m + 1 := ⟨n - 1, by simp at hn; omega⟩
    obtain ⟨a, k, v⟩ := x
    obtain ⟨rfl, next, ha, hg⟩ := he
    by_cases hf : found k = true
    · refine .inr ⟨[], (a, k, v), g, ?_⟩
      obtain ⟨p, c, hp, hc, hseg⟩ := hch.getElem? (i := i) (by
        rw [hch.length]
        exact (List.getElem?_eq_some_iff.mp hG).1)
      obtain rfl : P ++ (a, k, v) :: g = c := by simpa [hG] using hc
      obtain ⟨rest, hperm, -, hrest⟩ := Buckets.exists_flatten_perm hG
      cases P using List.reverseRecOn with
      | nil =>
        -- the first entry of the bucket
        refine ⟨t.heap, t.buckets.set i next, rfl, hf, by simp, ?_, by simp, fun _ _ => rfl, ?_⟩
        · simp [unlink, ha, hf]
        · simpa using hch.set hg fun _ _ _ _ _ _ => rfl
      | append_singleton P y =>
        -- the entry before it is linked to the one behind it
        obtain ⟨l, kl, vl⟩ := y
        have hs : Separate (P ++ [(l, kl, vl)] ++ ((a, k, v) :: g ++ rest)) := by
          rw [← List.append_assoc]
          exact hsep.perm hperm
        have hPl : ∀ x ∈ P, x.1 ≠ l := fun x hx =>
          (List.pairwise_append.mp (List.pairwise_append.mp hs).1).2.2 x hx (l, kl, vl) (by simp)
        have hlr : ∀ x ∈ g ++ rest, l ≠ x.1 := fun x hx =>
          (List.pairwise_append.mp hs).2.2 (l, kl, vl) (by simp) x (List.mem_cons_of_mem _ hx)
        obtain ⟨r, hsegP, -, next', ha', -⟩ := seg_append.mp hseg
        obtain ⟨nl, hl⟩ := hsegP.getElem? (x := (l, kl, vl)) (by simp)
        have hset : t.buckets.set i p = t.buckets := by
          obtain ⟨hlt, hpe⟩ := List.getElem?_eq_some_iff.mp hp
          rw [← hpe]
          exact List.set_getElem_self hlt
        refine ⟨t.heap.set l ⟨kl, vl, next⟩, t.buckets, rfl, hf, by simp, ?_, rfl, fun b hb => ?_,
          ?_⟩
        · simp [unlink, ha, hf, hl]
        · exact List.getElem?_set_ne (hb (l, kl, vl) (by simp))
        · rw [← hset, List.append_nil]
          refine hch.set (seg_append.mpr ⟨next, hsegP.setLast hPl next, hg.congr fun x hx => ?_⟩)
            fun j c hj hc x hx => ?_
          · rw [List.getElem?_set_ne (hlr x (List.mem_append_left _ hx))]
          · rw [List.getElem?_set_ne (hlr x (List.mem_append_right _ (hrest j c hj hc x hx)))]
    · have hstep : unlink i found (n + 1) t (P.getLast?.map Prod.fst) (some a) =
          unlink i found n t ((P ++ [(a, k, v)]).getLast?.map Prod.fst) next := by
        simp [unlink, ha, hf]
      rw [hstep]
      rcases ih (P := P ++ [(a, k, v)]) (by simpa using hG) hg (by simpa using hn) with
        ⟨hno, hrun⟩ | ⟨g₁, x, g₂, heap', buckets', rfl, hx, hfirst, hrun, hl, hframe, hch'⟩
      · refine .inl ⟨fun x hx => ?_, hrun⟩
        rcases List.mem_cons.mp hx with rfl | hx
        · simpa using hf
        · exact hno x hx
      · refine .inr ⟨(a, k, v) :: g₁, x, g₂, heap', buckets', rfl, hx, fun y hy => ?_, hrun, hl,
          by simpa using hframe, by simpa using hch'⟩
        rcases List.mem_cons.mp hy with rfl | hy
        · simpa using hf
        · exact hfirst y hy

omit [DecidableEq κ] in
theorem unlink_spec (found : κ → Bool) (hch : Chains t.heap t.buckets G)
    (hsep : Separate G.flatten) {i n : ℕ} {P : List (Cell κ ν)} {e : Option ℕ}
    (hG : G[i]? = some (P ++ g)) (he : Seg t.heap e g none) (hn : g.length < n) :
    (∀ x ∈ g, found x.2.1 = false) ∧
        unlink i found n t (P.getLast?.map Prod.fst) e = some (t, none) ∨
      ∃ g₁ x g₂ heap' buckets', g = g₁ ++ x :: g₂ ∧ found x.2.1 = true ∧
        unlink i found n t (P.getLast?.map Prod.fst) e = some
          ({ t with heap := heap', buckets := buckets', count := t.count - 1 }, some x.2.2) ∧
        buckets'.length = t.buckets.length ∧
        Chains heap' buckets' (G.set i (P ++ g₁ ++ g₂)) := by
  rcases unlink_first found hch hsep hG he hn with
    h | ⟨g₁, x, g₂, heap', buckets', hg, hx, -, hrun, hl, -, hch'⟩
  · exact .inl h
  · exact .inr ⟨g₁, x, g₂, heap', buckets', hg, hx, hrun, hl, hch'⟩

/-- **`remove` takes the key out and returns what it held.** -/
theorem remove_inv (hR : Lawful R kind) (h : Inv R kind t G m) (key : κ) :
    ∃ t' G', remove R kind t key = some (t', m key) ∧
      Inv R kind t' G' (MapMod.remove (R.test kind) m key) := by
  obtain ⟨p, g, hp, hg, hseg, hlen⟩ := h.bucket key
  have hspec := unlink_spec (P := []) (R.test kind key) h.chains h.layout.separate
    (by simpa using hg) hseg hlen
  simp only [remove, hp, Option.bind_eq_bind, Option.bind_some, hR.found_eq]
  rcases hspec with ⟨hno, hrun⟩ | ⟨g₁, x, g₂, heap', buckets', rfl, hk, hrun, hl, hch⟩
  · have hno := h.layout.not_found hR hg hno
    refine ⟨t, G, ?_, ?_⟩
    · rw [h.layout.represents.eq_none hno]
      exact hrun
    · rw [h.layout.represents.remove_eq hR.test hno]
      exact h
  · obtain ⟨rest, hperm, hset, -⟩ := Buckets.exists_flatten_perm hg
    obtain ⟨a, k', v'⟩ := x
    have hmem : (a, k', v') ∈ G.flatten := hperm.mem_iff.mpr (by simp)
    have hm : m key = some v' :=
      h.layout.represents.eq_some (List.mem_map.mpr ⟨(a, k', v'), hmem, rfl⟩) hk
    refine ⟨{ t with heap := heap', buckets := buckets', count := t.count - 1 },
      G.set (R.hash key &&& t.mask) (g₁ ++ g₂), hm ▸ hrun,
      ⟨by simpa using hch, ?_, h.capacity, by rw [← h.buckets_length]; exact hl, h.mask,
        h.threshold⟩, ?_, ?_⟩
    · refine h.layout.set hR hg (fun y hy => ?_) (fun rest _ hs => ?_) fun rest _ hr => ?_
      · exact h.layout.placed _ _ hg y (by
          rcases List.mem_append.mp hy with hy | hy <;> simp [hy])
      · have hs' : Separate ((a, k', v') :: (g₁ ++ g₂ ++ rest)) := hs.perm (by simp)
        exact (List.pairwise_cons.mp hs').2
      · simp only [List.map_append, List.map_cons, List.append_assoc, List.cons_append] at hr ⊢
        exact hr.erase hR.test hk
    · rw [(hset _).length_eq]
      have := h.count
      rw [hperm.length_eq] at this
      simp only [List.length_append, List.length_cons] at this ⊢
      omega
    · exact (Nat.sub_le _ _).trans h.le_threshold

omit [DecidableEq κ] in
theorem inv_empty (heap : List (HashEntry κ ν)) {c : ℕ} (hc : ∃ b ≤ 60, c = 2 ^ b) :
    Inv R kind ⟨heap, allocBuckets c, c, 0, loadThreshold c, c - 1⟩ (List.replicate c [])
      fun _ => none := by
  have hle : c ≤ 2 ^ 60 := by
    obtain ⟨b, hb, rfl⟩ := hc
    exact Nat.pow_le_pow_right (by norm_num) hb
  refine ⟨⟨?_, ⟨?_, fun i g hi x hx => ?_, ?_⟩, hc, ?_, rfl, rfl⟩, by simp, Nat.zero_le _⟩
  · rw [allocBuckets_eq hle]
    exact chains_replicate heap c
  · simp [Separate]
  · rw [List.getElem?_replicate] at hi
    split_ifs at hi
    obtain rfl : [] = g := by simpa using hi
    simp at hx
  · simpa using represents_nil
  · simp [allocBuckets_eq hle]

omit [DecidableEq κ] in
/-- **`clear` empties the table.** -/
theorem clear_inv (h : Inv R kind t G m) :
    Inv R kind (clear t) (List.replicate t.capacity []) fun _ => none := by
  rw [clear, h.threshold, h.mask]
  exact inv_empty t.heap h.capacity

omit [DecidableEq κ] in
/-- A new table whose bucket vector has fewer than `2 ^ 64` bytes. -/
theorem init_inv {size : ℕ} (hsize : size ≤ 2 ^ 60) :
    ∃ (t : Table κ ν) (G : List (List (Cell κ ν))), init size = some t ∧
      Inv R kind t G fun _ => none := by
  obtain ⟨c, hc, -, hlt, hcap⟩ := calculateInitialCapacity_eq (show size ≤ 2 ^ 61 by omega)
  have hc' : c ≤ 60 := by
    by_contra hcon
    obtain rfl : c = 61 := by omega
    have := hlt (by norm_num)
    omega
  refine ⟨_, _, ?_, inv_empty [] ⟨c, hc', rfl⟩⟩
  simp [init, hcap]

/-- **A larger table has no buckets at all**: the size of its bucket vector is `2 ^ 64` bytes,
which is `0` in 64 bits. -/
theorem put_init_eq_none {size : ℕ} (hlo : 2 ^ 60 < size) (hhi : size < 2 ^ 61) {t : Table κ ν}
    (ht : init size = some t) (key : κ) (value : ν) : put R kind t key value = none := by
  obtain ⟨c, hc, hle, -, hcap⟩ := calculateInitialCapacity_eq (show size ≤ 2 ^ 61 by omega)
  obtain rfl : c = 61 := by
    by_contra hne
    have : 2 ^ c ≤ 2 ^ 60 := Nat.pow_le_pow_right (by norm_num) (by omega)
    omega
  simp only [init, hcap, Option.bind_eq_bind, Option.bind_some, Option.pure_def,
    Option.some.injEq] at ht
  subst ht
  simp [put, allocBuckets, allocated]

/-! ## Runs -/

/-- The entries from `p` on. -/
def walk (heap : List (HashEntry κ ν)) : ℕ → Option ℕ → Option (List (κ × ν))
  | 0, _ => none
  | _ + 1, none => some []
  | n + 1, some a => do
    let e ← heap[a]?
    return (e.key, e.value) :: (← walk heap n e.next)

/-- The entries of each bucket. -/
def contents (t : Table κ ν) : Option (List (List (κ × ν))) := t.buckets.mapM (walk t.heap t.fuel)

variable (R kind) in
/-- The table `t` holds the map `m`: its buckets hold the associations of `m`, each key once and
in the bucket of its hash code, `_count` is their number and at most `_threshold`, and `get` reads
them. -/
structure Refines (t : Table κ ν) (m : κ → Option ν) : Prop where
  entries : ∃ G, contents t = some G ∧ Represents (R.test kind) G.flatten m ∧
    t.count = G.flatten.length ∧
    ∀ (i : ℕ) bucket, G[i]? = some bucket → ∀ x ∈ bucket, R.hash x.1 &&& t.mask = i
  le_threshold : t.count ≤ t.threshold
  get : ∀ key, get R kind t key = some (m key)

omit [DecidableEq κ] in
theorem walk_seg {heap : List (HashEntry κ ν)} {p : Option ℕ} (h : Seg heap p g none) {n : ℕ}
    (hn : g.length < n) : walk heap n p = some (g.map Prod.snd) := by
  induction g generalizing p n with
  | nil =>
    obtain ⟨n, rfl⟩ : ∃ m, n = m + 1 := ⟨n - 1, by simp at hn; omega⟩
    obtain rfl : p = none := h
    rfl
  | cons x g ih =>
    obtain ⟨n, rfl⟩ : ∃ m, n = m + 1 := ⟨n - 1, by simp at hn; omega⟩
    obtain ⟨a, k, v⟩ := x
    obtain ⟨rfl, next, ha, h⟩ := h
    simp [walk, ha, ih h (by simpa using hn)]

omit [DecidableEq κ] in
theorem mapM_walk {heap : List (HashEntry κ ν)} {buckets : List (Option ℕ)} {n : ℕ}
    (h : Chains heap buckets G) (hn : ∀ g ∈ G, g.length < n) :
    buckets.mapM (walk heap n) = some (G.map (List.map Prod.snd)) := by
  induction buckets generalizing G with
  | nil =>
    obtain rfl : G = [] := List.eq_nil_of_length_eq_zero h.length.symm
    rfl
  | cons p buckets ih =>
    cases G with
    | nil => exact absurd h.length (by simp)
    | cons g G =>
      have hp : walk heap n p = some (g.map Prod.snd) :=
        walk_seg (h.seg (i := 0) rfl rfl) (hn g List.mem_cons_self)
      have hrest : Chains heap buckets G :=
        ⟨by simpa using h.length, fun {i p g} hp hg => h.seg (i := i + 1) (by simpa using hp)
          (by simpa using hg)⟩
      simp [hp, ih hrest fun g hg => hn g (List.mem_cons_of_mem _ hg)]

theorem Inv.refines (hR : Lawful R kind) (h : Inv R kind t G m) : Refines R kind t m where
  entries := by
    have hflat : (G.map (List.map Prod.snd)).flatten = G.flatten.map Prod.snd :=
      List.map_flatten.symm
    refine ⟨G.map (List.map Prod.snd), mapM_walk h.chains fun g hg => ?_, ?_, ?_,
      fun i bucket hb x hx => ?_⟩
    · obtain ⟨i, hi⟩ := List.mem_iff_getElem?.mp hg
      obtain ⟨p, g', -, hg', hseg⟩ := h.chains.getElem? (i := i) (by
        rw [h.chains.length]
        exact (List.getElem?_eq_some_iff.mp hi).1)
      obtain rfl : g = g' := by simpa [hi] using hg'
      obtain ⟨rest, hperm, -⟩ := Buckets.exists_flatten_perm hi
      exact Nat.lt_succ_of_le
        (hseg.length_le (List.pairwise_append.mp (h.layout.separate.perm hperm)).1)
    · rw [hflat]
      exact h.layout.represents
    · rw [hflat, List.length_map]
      exact h.count
    · rw [List.getElem?_map] at hb
      obtain ⟨g, hg, rfl⟩ := Option.map_eq_some_iff.mp hb
      obtain ⟨y, hy, rfl⟩ := List.mem_map.mp hx
      exact h.layout.placed i g hg y hy
  le_threshold := h.le_threshold
  get := get_inv hR h.toShape

variable (R kind) in
/-- The operations on the finite map. -/
def specStep (m : κ → Option ν) : Op κ ν → κ → Option ν
  | .puthash key value => MapMod.put (R.test kind) m key value
  | .remhash key => MapMod.remove (R.test kind) m key
  | .clrhash => fun _ => none
  | .gethash _ => m

variable (R kind) in
/-- Every put of the run is made on a table of fewer than `3 * 2 ^ 58` entries. Beyond that the
next bucket vector would have `2 ^ 64` bytes. -/
def Fits : Table κ ν → List (Op κ ν) → Prop
  | _, [] => True
  | t, op :: ops => (∀ key value, op = .puthash key value → t.count < 3 * 2 ^ 58) ∧
    ∀ t', step R kind t op = some t' → Fits t' ops

/-- **One operation keeps the invariant.** -/
theorem step_inv (hR : Lawful R kind) (h : Inv R kind t G m) (op : Op κ ν)
    (hop : ∀ key value, op = .puthash key value → t.count < 3 * 2 ^ 58) :
    ∃ t' G', step R kind t op = some t' ∧ Inv R kind t' G' (specStep R kind m op) := by
  cases op with
  | puthash key value => exact put_inv hR h (hop key value rfl) key value
  | remhash key =>
    obtain ⟨t', G', hrun, hinv⟩ := remove_inv hR h key
    exact ⟨t', G', by simp [step, hrun], hinv⟩
  | clrhash => exact ⟨_, _, rfl, clear_inv h⟩
  | gethash key => exact ⟨t, G, by simp [step, get_inv hR h.toShape], h⟩

/-- **A run keeps the invariant.** -/
theorem run_inv (hR : Lawful R kind) (h : Inv R kind t G m) (ops : List (Op κ ν))
    (hfits : Fits R kind t ops) :
    ∃ t' G', run R kind t ops = some t' ∧ Inv R kind t' G' (ops.foldl (specStep R kind) m) := by
  induction ops generalizing t G m with
  | nil => exact ⟨t, G, rfl, h⟩
  | cons op ops ih =>
    obtain ⟨t₁, G₁, hstep, h₁⟩ := step_inv hR h op hfits.1
    obtain ⟨t', G', hrun, h'⟩ := ih h₁ (hfits.2 t₁ hstep)
    exact ⟨t', G', by simp [run, hstep, hrun], h'⟩

/-- **Hash tables refine finite maps modulo their test**, in every run from a new table and across
any number of rehashes, exactly when the initial size is at most `2 ^ 60`. -/
theorem refines_iff (hR : Lawful R kind) [Nonempty κ] [Nonempty ν] {size : ℕ}
    (hsize : size < 2 ^ 61) :
    (∃ t : Table κ ν, init size = some t ∧ ∀ ops, Fits R kind t ops →
      ∃ t', run R kind t ops = some t' ∧
        Refines R kind t' (ops.foldl (specStep R kind) fun _ => none)) ↔
      size ≤ 2 ^ 60 := by
  constructor
  · rintro ⟨t, ht, h⟩
    by_contra hlt
    obtain ⟨key⟩ := ‹Nonempty κ›
    obtain ⟨value⟩ := ‹Nonempty ν›
    have hput : put R kind t key value = none :=
      put_init_eq_none (not_le.mp hlt) hsize ht key value
    have hcount : t.count = 0 := by
      simp only [init, Option.bind_eq_bind, Option.bind_eq_some_iff, Option.pure_def,
        Option.some.injEq] at ht
      obtain ⟨c, -, rfl⟩ := ht
      rfl
    obtain ⟨t', hrun, -⟩ := h [.puthash key value]
      ⟨fun _ _ _ => by rw [hcount]; norm_num, fun t' _ => trivial⟩
    simp [run, step, hput] at hrun
  · intro hle
    obtain ⟨t, G, ht, hinv⟩ :
        ∃ (t : Table κ ν) (G : _), init size = some t ∧ Inv R kind t G fun _ => none :=
      init_inv hle
    refine ⟨t, ht, fun ops hfits => ?_⟩
    obtain ⟨t', G', hrun, hinv'⟩ := run_inv hR hinv ops hfits
    exact ⟨t', hrun, hinv'.refines hR⟩

def numberRuntime : Runtime ℕ where
  hash key := key
  eql a b := a == b
  equal a b := a == b

theorem lawful_numberRuntime (kind : Kind) : Lawful numberRuntime kind := by
  cases kind <;>
  exact ⟨⟨by simp [Runtime.test, numberRuntime],
    by simp [Runtime.test, numberRuntime], by simp [Runtime.test, numberRuntime]⟩,
    by simp [Runtime.test, numberRuntime]⟩

/-- Tables of the default size refine finite maps. -/
theorem refines_sixteen :
    ∃ t : Table ℕ ℕ, init 16 = some t ∧ ∀ ops, Fits numberRuntime .equal t ops →
      ∃ t', run numberRuntime .equal t ops = some t' ∧
        Refines numberRuntime .equal t' (ops.foldl (specStep numberRuntime .equal) fun _ => none) :=
  (refines_iff (lawful_numberRuntime .equal) (by norm_num)).mpr (by norm_num)

/-- The size `2 ^ 60 + 1` is a fixnum, and the first put on such a table leaves the bucket
vector. -/
theorem not_refines_large :
    ¬ ∃ t : Table ℕ ℕ, init (2 ^ 60 + 1) = some t ∧ ∀ ops,
      ∃ t', run numberRuntime .equal t ops = some t' ∧
        Refines numberRuntime .equal t'
          (ops.foldl (specStep numberRuntime .equal) fun _ => none) := by
  rintro ⟨t, ht, h⟩
  obtain ⟨t', hrun, -⟩ := h [.puthash 0 0]
  have hput : put numberRuntime .equal t 0 0 = none :=
    put_init_eq_none (by norm_num) (by norm_num) ht 0 0
  simp [run, step, hput] at hrun

end Xcl.HashTable
