import Xcl.HashTable.Model
import Xcl.Lib.Buckets

/-!
# The linked lists of a hash table

* `Seg heap p g q`: from the pointer `p` the store holds the entries `g`, given with their
  addresses, and the list ends in `q`;
* `relinkChain_spec`, **`relinkBuckets_spec`**: relinking in place moves every entry to the end of
  its new bucket.
-/

namespace Xcl.HashTable

variable {κ ν : Type}

/-- An entry with its address. -/
abbrev Cell (κ ν : Type) := ℕ × κ × ν

/-- The store holds the entries `g` from `p` on, and the last of them points to `q`. -/
def Seg (heap : List (HashEntry κ ν)) : Option ℕ → List (Cell κ ν) → Option ℕ → Prop
  | p, [], q => p = q
  | p, (a, k, v) :: g, q => p = some a ∧ ∃ next, heap[a]? = some ⟨k, v, next⟩ ∧ Seg heap next g q

variable {heap heap' : List (HashEntry κ ν)} {p q : Option ℕ} {g g₁ g₂ : List (Cell κ ν)}

theorem seg_append : Seg heap p (g₁ ++ g₂) q ↔ ∃ r, Seg heap p g₁ r ∧ Seg heap r g₂ q := by
  induction g₁ generalizing p with
  | nil => simp [Seg]
  | cons x g₁ ih =>
    obtain ⟨a, k, v⟩ := x
    simp only [List.cons_append, Seg, ih]
    constructor
    · rintro ⟨hp, next, ha, r, h₁, h₂⟩
      exact ⟨r, ⟨hp, next, ha, h₁⟩, h₂⟩
    · rintro ⟨r, ⟨hp, next, ha, h₁⟩, h₂⟩
      exact ⟨hp, next, ha, r, h₁, h₂⟩

theorem Seg.congr (h : Seg heap p g q) (he : ∀ x ∈ g, heap'[x.1]? = heap[x.1]?) :
    Seg heap' p g q := by
  induction g generalizing p with
  | nil => exact h
  | cons x g ih =>
    obtain ⟨a, k, v⟩ := x
    obtain ⟨hp, next, ha, h⟩ := h
    refine ⟨hp, next, ?_, ih h fun x hx => he x (List.mem_cons_of_mem _ hx)⟩
    rw [he (a, k, v) List.mem_cons_self, ha]

theorem Seg.getElem? (h : Seg heap p g q) {x : Cell κ ν} (hx : x ∈ g) :
    ∃ next, heap[x.1]? = some ⟨x.2.1, x.2.2, next⟩ := by
  obtain ⟨g₁, g₂, rfl⟩ := List.append_of_mem hx
  obtain ⟨r, -, -, next, hn, -⟩ := seg_append.mp h
  exact ⟨next, hn⟩

theorem Seg.lt_length (h : Seg heap p g q) {x : Cell κ ν} (hx : x ∈ g) : x.1 < heap.length := by
  obtain ⟨next, hn⟩ := h.getElem? hx
  exact (List.getElem?_eq_some_iff.mp hn).1

theorem Seg.setLast {a : ℕ} {k : κ} {v : ν} (h : Seg heap p (g ++ [(a, k, v)]) q)
    (hd : ∀ x ∈ g, x.1 ≠ a) (q' : Option ℕ) :
    Seg (heap.set a ⟨k, v, q'⟩) p (g ++ [(a, k, v)]) q' := by
  have ha : a < heap.length := h.lt_length (x := (a, k, v)) (by simp)
  obtain ⟨r, h₁, hr, next, hn, -⟩ := seg_append.mp h
  refine seg_append.mpr ⟨r, h₁.congr fun x hx => ?_, hr, q', ?_, rfl⟩
  · rw [List.getElem?_set_ne (Ne.symm (hd x hx))]
  · rw [List.getElem?_set_self ha]

theorem Seg.setValue {a : ℕ} {k : κ} {v : ν} (h : Seg heap p (g₁ ++ (a, k, v) :: g₂) q)
    (hd : ∀ x ∈ g₁ ++ g₂, x.1 ≠ a) {e : HashEntry κ ν} (he : heap[a]? = some e) (v' : ν) :
    Seg (heap.set a { e with value := v' }) p (g₁ ++ (a, k, v') :: g₂) q := by
  obtain ⟨r, h₁, hr, next, hn, h₂⟩ := seg_append.mp h
  obtain rfl : e = ⟨k, v, next⟩ := by rw [he] at hn; simpa using hn
  have hne : ∀ x ∈ g₁ ++ g₂, (heap.set a ⟨k, v', next⟩)[x.1]? = heap[x.1]? := fun x hx => by
    rw [List.getElem?_set_ne (Ne.symm (hd x hx))]
  refine seg_append.mpr ⟨r, h₁.congr fun x hx => hne x (by simp [hx]), hr, next, ?_,
    h₂.congr fun x hx => hne x (by simp [hx])⟩
  rw [List.getElem?_set_self (List.getElem?_eq_some_iff.mp he).1]

/-- Distinct entries have distinct addresses. -/
def Separate (l : List (Cell κ ν)) : Prop := l.Pairwise fun x y => x.1 ≠ y.1

theorem Separate.perm {l l' : List (Cell κ ν)} (h : Separate l) (hp : l.Perm l') : Separate l' :=
  (hp.pairwise_iff fun {_ _} hxy => Ne.symm hxy).mp h

theorem Seg.length_le (h : Seg heap p g q) (hs : Separate g) : g.length ≤ heap.length := by
  have hnd : (g.map Prod.fst).Nodup := List.pairwise_map.mpr hs
  have hsub : g.map Prod.fst ⊆ List.range heap.length := by
    intro a ha
    obtain ⟨x, hx, rfl⟩ := List.mem_map.mp ha
    exact List.mem_range.mpr (h.lt_length hx)
  simpa using (List.subperm_of_subset hnd hsub).length_le

/-! ## Loops along a list -/

theorem lookup_seg (found : κ → Bool) (h : Seg heap p g none) {n : ℕ} (hn : g.length < n) :
    lookup heap found n p = some ((g.find? fun x => found x.2.1).map Prod.fst) := by
  induction g generalizing p n with
  | nil =>
    obtain ⟨n, rfl⟩ : ∃ m, n = m + 1 := ⟨n - 1, by simp at hn; omega⟩
    obtain rfl : p = none := h
    rfl
  | cons x g ih =>
    obtain ⟨n, rfl⟩ : ∃ m, n = m + 1 := ⟨n - 1, by simp at hn; omega⟩
    obtain ⟨a, k, v⟩ := x
    obtain ⟨rfl, next, ha, h⟩ := h
    simp only [lookup, ha, Option.bind_eq_bind, Option.bind_some, List.find?_cons]
    cases hf : found k with
    | true => simp
    | false =>
      simp only [Bool.false_eq_true, if_false]
      exact ih h (by simpa using hn)

theorem lastEntry_seg {a d : ℕ} {k : κ} {v : ν} (h : Seg heap (some d) (g ++ [(a, k, v)]) none)
    {n : ℕ} (hn : g.length < n) : lastEntry heap n d = some a := by
  induction g generalizing d n with
  | nil =>
    obtain ⟨n, rfl⟩ : ∃ m, n = m + 1 := ⟨n - 1, by simp at hn; omega⟩
    obtain ⟨hd, next, ha, rfl⟩ := h
    obtain rfl : d = a := by simpa using hd
    simp [lastEntry, ha]
  | cons x g ih =>
    obtain ⟨n, rfl⟩ : ∃ m, n = m + 1 := ⟨n - 1, by simp at hn; omega⟩
    obtain ⟨b, k', v'⟩ := x
    obtain ⟨hd, next, hb, h⟩ := h
    obtain rfl : d = b := by simpa using hd
    -- the list does not end here, so the link leads on
    obtain ⟨d', rfl⟩ : ∃ d', next = some d' := by
      cases g with
      | nil => exact ⟨_, h.1⟩
      | cons y g => exact ⟨_, h.1⟩
    simp only [lastEntry, hb, Option.bind_eq_bind, Option.bind_some]
    exact ih h (by simpa using hn)

/-! ## The lists of all buckets -/

/-- Every bucket holds the list the specification `G` gives for it. -/
structure Chains (heap : List (HashEntry κ ν)) (buckets : List (Option ℕ))
    (G : List (List (Cell κ ν))) : Prop where
  length : buckets.length = G.length
  seg : ∀ {i : ℕ} {p g}, buckets[i]? = some p → G[i]? = some g → Seg heap p g none

variable {buckets : List (Option ℕ)} {G : List (List (Cell κ ν))}

theorem Chains.getElem? (h : Chains heap buckets G) {i : ℕ} (hi : i < buckets.length) :
    ∃ p g, buckets[i]? = some p ∧ G[i]? = some g ∧ Seg heap p g none := by
  have hp := List.getElem?_eq_getElem hi
  have hg := List.getElem?_eq_getElem (l := G) (i := i) (by have := h.length; omega)
  exact ⟨_, _, hp, hg, h.seg hp hg⟩

theorem Chains.set (h : Chains heap buckets G) {i : ℕ} (hnew : Seg heap' q g₂ none)
    (hother : ∀ j g, j ≠ i → G[j]? = some g → ∀ x ∈ g, heap'[x.1]? = heap[x.1]?) :
    Chains heap' (buckets.set i q) (G.set i g₂) where
  length := by simpa using h.length
  seg {j p g} hp hg := by
    by_cases hj : j = i
    · subst hj
      rw [List.getElem?_set] at hp hg
      simp only [if_true] at hp hg
      split_ifs at hp hg
      obtain rfl : q = p := by simpa using hp
      obtain rfl : g₂ = g := by simpa using hg
      exact hnew
    · rw [List.getElem?_set_ne (Ne.symm hj)] at hp hg
      exact (h.seg hp hg).congr (hother j g hj hg)

/-! ## Relinking -/

variable (R : Runtime κ) (mask : ℕ)

/-- Puts an entry at the end of its bucket. -/
def place (N : List (List (Cell κ ν))) (x : Cell κ ν) : List (List (Cell κ ν)) :=
  N.modify (R.hash x.2.1 &&& mask) (· ++ [x])

variable {N : List (List (Cell κ ν))}

@[simp] theorem length_place (x : Cell κ ν) : (place R mask N x).length = N.length := by
  simp [place]

theorem place_eq_set {x : Cell κ ν} {c : List (Cell κ ν)}
    (h : N[R.hash x.2.1 &&& mask]? = some c) :
    place R mask N x = N.set (R.hash x.2.1 &&& mask) (c ++ [x]) := by
  rw [place, List.modify_eq_set_getElem?, h]
  rfl

theorem flatten_place_perm {x : Cell κ ν} (hx : R.hash x.2.1 &&& mask < N.length) :
    (place R mask N x).flatten.Perm (N.flatten ++ [x]) := by
  have hc := List.getElem?_eq_getElem hx
  obtain ⟨rest, h₁, h₂, -⟩ := Buckets.exists_flatten_perm hc
  rw [place_eq_set R mask hc]
  refine (h₂ _).trans ?_
  rw [List.append_assoc]
  refine (List.perm_append_comm.append_left _).trans ?_
  rw [← List.append_assoc]
  exact h₁.symm.append_right [x]

@[simp] theorem length_foldl_place (g : List (Cell κ ν)) :
    (g.foldl (place R mask) N).length = N.length := by
  induction g generalizing N with
  | nil => rfl
  | cons x g ih => rw [List.foldl_cons, ih, length_place]

theorem flatten_foldl_place_perm (hg : ∀ x ∈ g, R.hash x.2.1 &&& mask < N.length) :
    (g.foldl (place R mask) N).flatten.Perm (N.flatten ++ g) := by
  induction g generalizing N with
  | nil => simp
  | cons x g ih =>
    have hx := flatten_place_perm R mask (hg x List.mem_cons_self)
    refine (ih fun y hy => ?_).trans ?_
    · rw [length_place]
      exact hg y (List.mem_cons_of_mem _ hy)
    · simpa using hx.append_right g

/-- **One round of the inner loop** appends the entry to its bucket and cuts it off from the
rest of its old list. -/
theorem relinkChain_step {n a : ℕ} {k : κ} {v : ν} {next : Option ℕ}
    (hN : Chains heap buckets N) (ha : heap[a]? = some ⟨k, v, next⟩)
    (hsep : Separate (N.flatten ++ [(a, k, v)])) (hi : R.hash k &&& mask < buckets.length) :
    ∃ heap₁ buckets₁,
      relinkChain R mask (n + 1) heap buckets (some a) =
        relinkChain R mask n heap₁ buckets₁ next ∧
      heap₁.length = heap.length ∧ Chains heap₁ buckets₁ (place R mask N (a, k, v)) ∧
      ∀ b, (∀ x ∈ N.flatten ++ [(a, k, v)], x.1 ≠ b) → heap₁[b]? = heap[b]? := by
  obtain ⟨dest, c, hdest, hc, hseg⟩ := hN.getElem? hi
  obtain ⟨rest, hp, -, hrest⟩ := Buckets.exists_flatten_perm hc
  have hsep' : Separate (c ++ rest ++ [(a, k, v)]) := hsep.perm (hp.append_right _)
  have hac : ∀ x ∈ c ++ rest, x.1 ≠ a := fun x hx =>
    (List.pairwise_append.mp hsep').2.2 x hx (a, k, v) (by simp)
  have hlen : a < heap.length := (List.getElem?_eq_some_iff.mp ha).1
  have hplace := place_eq_set R mask (x := (a, k, v)) hc
  cases dest with
  | none =>
    -- an empty bucket: the entry becomes its first one
    obtain rfl : c = [] := by
      cases c with
      | nil => rfl
      | cons y c => exact absurd hseg.1 (by simp)
    refine ⟨heap.set a ⟨k, v, none⟩, buckets.set (R.hash k &&& mask) (some a), ?_, by simp, ?_, ?_⟩
    · simp [relinkChain, ha, hdest]
    · rw [hplace]
      refine hN.set ⟨rfl, none, ?_, rfl⟩ fun j g hj hg x hx => ?_
      · rw [List.getElem?_set_self hlen]
      · rw [List.getElem?_set_ne (Ne.symm (hac x (hrest j g hj hg x hx)))]
    · intro b hb
      rw [List.getElem?_set_ne (hb (a, k, v) (by simp))]
  | some d =>
    -- the entry is hung from the last one of the bucket
    obtain ⟨c', ⟨b, kb, vb⟩, rfl⟩ : ∃ c' y, c = c' ++ [y] := by
      cases c using List.reverseRecOn with
      | nil => exact absurd hseg (by simp [Seg])
      | append_singleton c' y _ => exact ⟨c', y, rfl⟩
    have hcb : ∀ x ∈ c', x.1 ≠ b := fun x hx =>
      (List.pairwise_append.mp (List.pairwise_append.mp (List.pairwise_append.mp hsep').1).1).2.2
        x hx (b, kb, vb) (by simp)
    have hbrest : ∀ x ∈ rest, b ≠ x.1 := fun x hx =>
      (List.pairwise_append.mp (List.pairwise_append.mp hsep').1).2.2 (b, kb, vb) (by simp) x hx
    have hba : b ≠ a := hac (b, kb, vb) (by simp)
    obtain ⟨nb, hb⟩ := hseg.getElem? (x := (b, kb, vb)) (by simp)
    have hclen : c'.length < heap.length + 1 := by
      have := hseg.length_le (List.pairwise_append.mp (List.pairwise_append.mp hsep').1).1
      simp only [List.length_append, List.length_singleton] at this
      omega
    refine ⟨(heap.set b ⟨kb, vb, some a⟩).set a ⟨k, v, none⟩, buckets, ?_, by simp, ?_, ?_⟩
    · simp [relinkChain, ha, hdest, lastEntry_seg hseg hclen, hb, List.getElem?_set_ne hba]
    · rw [hplace]
      have hset : buckets.set (R.hash k &&& mask) (some d) = buckets := by
        obtain ⟨hlt, he⟩ := List.getElem?_eq_some_iff.mp hdest
        rw [← he]
        exact List.set_getElem_self hlt
      rw [← hset]
      refine hN.set (seg_append.mpr ⟨some a, ?_, rfl, none, ?_, rfl⟩) fun j g hj hg x hx => ?_
      · refine (hseg.setLast hcb (some a)).congr fun x hx => ?_
        rw [List.getElem?_set_ne (Ne.symm (hac x (List.mem_append_left _ hx)))]
      · rw [List.getElem?_set_self (by simpa using hlen)]
      · have hx := hrest j g hj hg x hx
        rw [List.getElem?_set_ne (Ne.symm (hac x (List.mem_append_right _ hx))),
          List.getElem?_set_ne (hbrest x hx)]
    · intro e he
      have hbe : b ≠ e := he (b, kb, vb) (by
        rw [List.mem_append, hp.mem_iff]; simp)
      rw [List.getElem?_set_ne (he (a, k, v) (by simp)), List.getElem?_set_ne hbe]

/-- **The inner loop.** -/
theorem relinkChain_spec {n : ℕ} {e : Option ℕ} (hN : Chains heap buckets N)
    (hg : Seg heap e g none) (hsep : Separate (N.flatten ++ g))
    (hi : ∀ x ∈ g, R.hash x.2.1 &&& mask < buckets.length) (hn : g.length < n) :
    ∃ heap' buckets',
      relinkChain R mask n heap buckets e = some (heap', buckets') ∧
      heap'.length = heap.length ∧ Chains heap' buckets' (g.foldl (place R mask) N) ∧
      ∀ b, (∀ x ∈ N.flatten ++ g, x.1 ≠ b) → heap'[b]? = heap[b]? := by
  induction g generalizing n e N heap buckets with
  | nil =>
    obtain ⟨n, rfl⟩ : ∃ m, n = m + 1 := ⟨n - 1, by simp at hn; omega⟩
    obtain rfl : e = none := hg
    exact ⟨heap, buckets, rfl, rfl, hN, fun _ _ => rfl⟩
  | cons x g ih =>
    obtain ⟨n, rfl⟩ : ∃ m, n = m + 1 := ⟨n - 1, by simp at hn; omega⟩
    obtain ⟨a, k, v⟩ := x
    obtain ⟨rfl, next, ha, hg⟩ := hg
    have happ : N.flatten ++ (a, k, v) :: g = (N.flatten ++ [(a, k, v)]) ++ g := by simp
    rw [happ] at hsep
    have hik := hi _ List.mem_cons_self
    obtain ⟨heap₁, buckets₁, hstep, hlen₁, hN₁, hframe₁⟩ := relinkChain_step R mask (n := n) hN ha
      (List.pairwise_append.mp hsep).1 hik
    have hperm := flatten_place_perm R mask (N := N) (x := (a, k, v)) (by rwa [← hN.length])
    have hbl : buckets₁.length = buckets.length := by
      rw [hN₁.length, length_place, hN.length]
    -- the rest of the old list is not touched by this round
    have hg₁ : Seg heap₁ next g none := hg.congr fun y hy => hframe₁ _ fun x hx =>
      (List.pairwise_append.mp hsep).2.2 x hx y hy
    obtain ⟨heap', buckets', hrun, hlen, hN', hframe⟩ := ih (n := n) hN₁ hg₁
      (hsep.perm (hperm.symm.append_right g))
      (fun x hx => hbl ▸ hi x (List.mem_cons_of_mem _ hx)) (by simpa using hn)
    refine ⟨heap', buckets', hstep.trans hrun, hlen.trans hlen₁, hN', fun b hb => ?_⟩
    rw [happ] at hb
    rw [hframe b fun x hx => hb x ?_, hframe₁ b fun x hx => hb x (List.mem_append_left _ hx)]
    exact (hperm.append_right g).mem_iff.mp hx

/-- The entries of the old buckets below `i`, in the order in which the outer loop visits them. -/
def visited (G : List (List (Cell κ ν))) (i : ℕ) : List (Cell κ ν) := (G.take i).reverse.flatten

theorem visited_succ {G : List (List (Cell κ ν))} {i : ℕ} {g : List (Cell κ ν)}
    (h : G[i]? = some g) : visited G (i + 1) = g ++ visited G i := by
  rw [visited, List.take_add_one, h]
  simp [visited]

theorem mem_visited {G : List (List (Cell κ ν))} {i j : ℕ} {g : List (Cell κ ν)} (hj : j < i)
    (h : G[j]? = some g) {x : Cell κ ν} (hx : x ∈ g) : x ∈ visited G i := by
  refine List.mem_flatten.mpr ⟨g, List.mem_reverse.mpr ?_, hx⟩
  exact List.mem_of_getElem? (i := j) (by rwa [List.getElem?_take_of_lt hj])

/-- **The outer loop.** Only the lists it has yet to visit are still as they were. -/
theorem relinkBuckets_spec {old : List (Option ℕ)} (i : ℕ)
    (hold : ∀ (j : ℕ) p g, j < i → old[j]? = some p → G[j]? = some g → Seg heap p g none)
    (hN : Chains heap buckets N) (hsep : Separate (N.flatten ++ visited G i))
    (hi : ∀ k : κ, R.hash k &&& mask < buckets.length) (hil : i ≤ old.length)
    (hGl : old.length = G.length) :
    ∃ heap' buckets',
      relinkBuckets R mask old i heap buckets = some (heap', buckets') ∧
      heap'.length = heap.length ∧
      Chains heap' buckets' ((visited G i).foldl (place R mask) N) := by
  induction i generalizing heap buckets N with
  | zero => exact ⟨heap, buckets, rfl, rfl, by simpa [visited] using hN⟩
  | succ i ih =>
    have he := List.getElem?_eq_getElem (l := old) (i := i) (by omega)
    have hg := List.getElem?_eq_getElem (l := G) (i := i) (by omega)
    have hseg := hold i _ _ (Nat.lt_succ_self i) he hg
    generalize old[i] = e at he hseg
    generalize G[i] = g at hg hseg
    rw [visited_succ hg] at hsep ⊢
    rw [← List.append_assoc] at hsep
    have hsep₁ := (List.pairwise_append.mp hsep).1
    obtain ⟨heap₁, buckets₁, hrun₁, hlen₁, hN₁, hframe₁⟩ := relinkChain_spec R mask
      (n := heap.length + 1) hN hseg hsep₁ (fun x _ => hi x.2.1) (Nat.lt_succ_of_le
        (hseg.length_le (List.pairwise_append.mp hsep₁).2.1))
    have hbl : buckets₁.length = buckets.length := by
      rw [hN₁.length, hN.length, length_foldl_place]
    -- the lists that are still to be visited share no entry with the ones touched so far
    have hold₁ : ∀ (j : ℕ) p g, j < i → old[j]? = some p → G[j]? = some g →
        Seg heap₁ p g none := fun j p g' hj hp hg' =>
      (hold j p g' (by omega) hp hg').congr fun y hy => hframe₁ _ fun x hx =>
        (List.pairwise_append.mp hsep).2.2 x hx y (mem_visited hj hg' hy)
    obtain ⟨heap', buckets', hrun, hlen, hN'⟩ := ih hold₁ hN₁
      (hsep.perm
        ((flatten_foldl_place_perm R mask fun x _ => hN.length ▸ hi x.2.1).symm.append_right _))
      (fun k => hbl ▸ hi k) (by omega)
    refine ⟨heap', buckets', ?_, hlen.trans hlen₁, by rwa [List.foldl_append]⟩
    simp only [relinkBuckets, he, Option.bind_eq_bind, Option.bind_some, hrun₁, hrun]

end Xcl.HashTable
