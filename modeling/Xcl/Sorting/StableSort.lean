import Xcl.Sorting.Merge

/-!
# Stability

* `StablySorted`: sorted, and equivalent elements keep their order;
* **`stableSort_spec`**: `stable-sort` and `merge`.
-/

namespace Xcl.Merging

open Sorting (StrictWeakOrder Sorted)

variable {α β κ : Type} {predicate : κ → κ → Bool} {key : α → κ}

/-! ## Stably sorted lists -/

/-- The key of the element is equivalent to `k`. -/
def equivalent (predicate : κ → κ → Bool) (key : α → κ) (k : κ) (x : α) : Bool :=
  !predicate (key x) k && !predicate k (key x)

/-- `m` is a sorted permutation of `l` with the equivalent elements in the same order. -/
structure StablySorted (predicate : κ → κ → Bool) (key : α → κ) (l m : List α) : Prop where
  perm : m.Perm l
  sorted : Sorted predicate key m
  stable : ∀ k, m.filter (equivalent predicate key k) = l.filter (equivalent predicate key k)

/-- The element of the first list goes first. -/
def first (predicate : κ → κ → Bool) (key : α → κ) (x y : α) : Bool := !predicate (key y) (key x)

theorem not_before_trans (h : StrictWeakOrder predicate) {a b c : κ}
    (hab : predicate a b = false) (hbc : predicate b c = false) : predicate a c = false := by
  by_contra hac
  rw [Bool.not_eq_false] at hac
  have hba : predicate b a = false := by
    by_contra hba
    rw [Bool.not_eq_false] at hba
    rw [h.trans _ _ _ hba hac] at hbc
    cases hbc
  have hcb : predicate c b = false := by
    by_contra hcb
    rw [Bool.not_eq_false] at hcb
    rw [h.trans _ _ _ hac hcb] at hab
    cases hab
  rw [(h.incomparable _ _ _ hab hba hbc hcb).1] at hac
  cases hac

theorem not_equivalent_of_before (h : StrictWeakOrder predicate) {k : κ} {x y : α}
    (hyx : predicate (key y) (key x) = true) (hy : equivalent predicate key k y = true) :
    equivalent predicate key k x = false := by
  obtain ⟨hyk, hky⟩ : predicate (key y) k = false ∧ predicate k (key y) = false := by
    simpa [equivalent] using hy
  by_contra hx
  obtain ⟨hxk, hkx⟩ : predicate (key x) k = false ∧ predicate k (key x) = false := by
    simpa [equivalent] using hx
  rw [not_before_trans h hyk hkx] at hyx
  cases hyx

theorem filter_merge (h : StrictWeakOrder predicate) (k : κ) :
    ∀ {l m : List α}, Sorted predicate key l →
      (l.merge m (first predicate key)).filter (equivalent predicate key k) =
        l.filter (equivalent predicate key k) ++ m.filter (equivalent predicate key k)
  | [], m, _ => by rw [List.nil_merge]; rfl
  | x :: l, [], _ => by rw [List.merge_right]; exact (List.append_nil _).symm
  | x :: l, y :: m, hl => by
    by_cases hxy : first predicate key x y
    · rw [List.cons_merge_cons_pos _ _ _ hxy, List.filter_cons, List.filter_cons (x := x),
        filter_merge h k hl.of_cons]
      split_ifs <;> rfl
    · rw [List.cons_merge_cons_neg _ _ _ hxy, List.filter_cons, filter_merge h k hl,
        List.filter_cons (x := y)]
      by_cases hy : equivalent predicate key k y
      · -- What is left of the first list is behind `y`.
        have hyx : predicate (key y) (key x) = true := by simpa [first] using hxy
        have hnone : (x :: l).filter (equivalent predicate key k) = [] := by
          refine List.filter_eq_nil_iff.mpr fun z hz => ?_
          have hxz : predicate (key z) (key x) = false := by
            rcases List.mem_cons.mp hz with rfl | hz
            · exact h.irrefl _
            · exact List.rel_of_pairwise_cons hl hz
          have hyz : predicate (key y) (key z) = true := by
            by_contra hyz
            rw [not_before_trans h (Bool.eq_false_iff.mpr hyz) hxz] at hyx
            cases hyx
          rw [not_equivalent_of_before h hyz hy]
          exact Bool.false_ne_true
        rw [hnone]
        rfl
      · rw [if_neg hy, if_neg hy]

theorem stablySorted_merge (h : StrictWeakOrder predicate) {l m l' m' : List α}
    (hl : StablySorted predicate key l l') (hm : StablySorted predicate key m m') :
    StablySorted predicate key (l ++ m) (l'.merge m' (first predicate key)) where
  perm := by
    have hmerge : (l'.merge m' (first predicate key)).Perm (l' ++ m') :=
      List.merge_perm_append _
    exact hmerge.trans (hl.perm.append hm.perm)
  sorted := by
    have htrans : ∀ a b c : α, first predicate key a b = true → first predicate key b c = true →
        first predicate key a c = true := by
      intro a b c hab hbc
      simp only [first, Bool.not_eq_true'] at *
      exact not_before_trans h hbc hab
    have htotal : ∀ a b : α, (first predicate key a b || first predicate key b a) = true := by
      intro a b
      simp only [first, Bool.or_eq_true, Bool.not_eq_true']
      by_contra hboth
      push Not at hboth
      obtain ⟨hba, hab⟩ := hboth
      rw [Bool.ne_false_iff] at hba hab
      have hself := h.trans _ _ _ hba hab
      rw [h.irrefl] at hself
      cases hself
    have hpairwise := List.pairwise_merge htrans htotal l' m'
      (hl.sorted.imp (by simp [first])) (hm.sorted.imp (by simp [first]))
    exact hpairwise.imp (by simp [first])
  stable k := by
    rw [filter_merge h k hl.sorted, List.filter_append, hl.stable, hm.stable]

theorem sorted_map {f : β → α} {l : List β} :
    Sorted predicate key (l.map f) ↔ Sorted predicate (key ∘ f) l := List.pairwise_map

theorem StablySorted.map {f : β → α} {l m : List β}
    (h : StablySorted predicate (key ∘ f) l m) :
    StablySorted predicate key (l.map f) (m.map f) where
  perm := h.perm.map f
  sorted := sorted_map.mpr h.sorted
  stable k := by
    rw [List.filter_map, List.filter_map]
    exact congrArg (List.map f) (h.stable k)

/-! ## Merging conses -/

variable {cells : Cells α} {contents : ℕ → α} {x1 x2 : Option ℕ} {l m : List ℕ} {n splice : ℕ}

@[simp] theorem rplacd_car (a : ℕ) (value : Option ℕ) :
    (rplacd cells splice value a).car = (cells a).car := by
  by_cases h : a = splice
  · rw [h, rplacd, Function.update_self]
  · rw [rplacd, Function.update_of_ne h]

@[simp] theorem rplacd_cdr_self (value : Option ℕ) :
    (rplacd cells splice value splice).cdr = value := by
  rw [rplacd, Function.update_self]

theorem rplacd_of_ne {a : ℕ} (h : a ≠ splice) (value : Option ℕ) :
    rplacd cells splice value a = cells a := by
  rw [rplacd, Function.update_of_ne h]

/-- No element changes, and no link outside of some conses. -/
structure Relinked (cells cells' : Cells α) (addresses : List ℕ) : Prop where
  car : ∀ a, (cells' a).car = (cells a).car
  same : ∀ a ∉ addresses, cells' a = cells a

theorem relinked_rplacd (value : Option ℕ) (addresses : List ℕ) :
    Relinked cells (rplacd cells splice value) (splice :: addresses) where
  car _ := rplacd_car _ value
  same _ ha := rplacd_of_ne (List.ne_of_not_mem_cons ha) value

theorem Relinked.mono {cells' : Cells α} {addresses addresses' : List ℕ}
    (h : Relinked cells cells' addresses) (hsub : addresses ⊆ addresses') :
    Relinked cells cells' addresses' where
  car := h.car
  same a ha := h.same a fun ha' => ha (hsub ha')

theorem Relinked.trans {cells' cells'' : Cells α} {addresses addresses' : List ℕ}
    (h : Relinked cells cells' addresses) (h' : Relinked cells' cells'' addresses')
    (hsub : addresses' ⊆ addresses) : Relinked cells cells'' addresses where
  car a := (h'.car a).trans (h.car a)
  same a ha := (h'.same a fun ha' => ha (hsub ha')).trans (h.same a ha)

theorem Relinked.chain {cells' : Cells α} {addresses others : List ℕ} {link : Option ℕ}
    (h : Relinked cells cells' addresses) (hchain : Chain cells link others)
    (hdisjoint : ∀ a ∈ others, a ∉ addresses) : Chain cells' link others :=
  chain_congr (fun a ha => h.same a (hdisjoint a ha)) hchain

theorem mergeLoop_none_left :
    mergeLoop predicate key (n + 1) cells none x2 splice = .ok (rplacd cells splice x2) := by
  cases x2 <;> rfl

theorem mergeLoop_none_right :
    mergeLoop predicate key (n + 1) cells x1 none splice = .ok (rplacd cells splice x1) := by
  cases x1 <;> rfl

/-- One round: the cons `a` is linked, and the rest is behind it. -/
theorem linked_of_rest {cells' : Cells α} {a : ℕ} {rest merged : List ℕ}
    (hrest : Relinked (rplacd cells splice (some a)) cells' (a :: rest))
    (hchain : Chain cells' (cells' a).cdr merged) (hsplice : splice ∉ a :: rest) :
    Relinked cells cells' (splice :: a :: rest) ∧
      Chain cells' (cells' splice).cdr (a :: merged) := by
  constructor
  · exact (relinked_rplacd (some a) (a :: rest)).trans hrest (List.subset_cons_self _ _)
  · rw [hrest.same splice hsplice, rplacd_cdr_self]
    exact ⟨rfl, hchain⟩

/-- **The loop of `merge-lists`** links the conses behind `splice` in the order of the merge. -/
theorem mergeLoop_spec (hcontents : ∀ a ∈ l ++ m, (cells a).car = contents a)
    (h1 : Chain cells x1 l) (h2 : Chain cells x2 m) (hnodup : (splice :: (l ++ m)).Nodup)
    (hn : l.length + m.length < n) :
    ∃ cells', mergeLoop predicate key n cells x1 x2 splice = .ok cells' ∧
      Relinked cells cells' (splice :: (l ++ m)) ∧
      Chain cells' (cells' splice).cdr (l.merge m (first predicate (key ∘ contents))) := by
  induction n generalizing cells x1 x2 l m splice with
  | zero => omega
  | succ n ih =>
    obtain ⟨hsplice, hlm⟩ := List.nodup_cons.mp hnodup
    match l, m with
    | [], m =>
      obtain rfl := chain_nil h1
      refine ⟨_, mergeLoop_none_left, relinked_rplacd _ _, ?_⟩
      rw [rplacd_cdr_self, List.nil_merge]
      exact (relinked_rplacd x2 []).chain h2 fun a ha hsame =>
        hsplice (List.mem_singleton.mp hsame ▸ ha)
    | a :: l, [] =>
      obtain rfl := chain_nil h2
      refine ⟨_, mergeLoop_none_right, relinked_rplacd _ _, ?_⟩
      rw [rplacd_cdr_self, List.merge_right]
      exact (relinked_rplacd x1 []).chain h1 fun b hb hsame =>
        hsplice (List.mem_singleton.mp hsame ▸ List.mem_append_left _ hb)
    | a :: l, b :: m =>
      obtain ⟨rfl, hl⟩ := chain_cons h1
      obtain ⟨rfl, hm⟩ := chain_cons h2
      have hne : ∀ c ∈ a :: l ++ b :: m, c ≠ splice := fun c hc hsame => hsplice (hsame ▸ hc)
      have hafter : ∀ value, ∀ c ∈ a :: l ++ b :: m, rplacd cells splice value c = cells c :=
        fun value c hc => rplacd_of_ne (hne c hc) value
      have hcontents' : ∀ value, ∀ c ∈ a :: l ++ b :: m,
          (rplacd cells splice value c).car = contents c :=
        fun value c hc => (rplacd_car c value).trans (hcontents c hc)
      have hb : b ∈ a :: l ++ b :: m := by simp
      rw [mergeLoop]
      simp only [hcontents a List.mem_cons_self, hcontents b hb]
      by_cases hp : predicate (key (contents b)) (key (contents a))
      · have hperm : (a :: l ++ b :: m).Perm (b :: (a :: l ++ m)) := List.perm_middle
        have hnodup' : (b :: (a :: l ++ m)).Nodup := hperm.nodup_iff.mp hlm
        have hl' : Chain (rplacd cells splice (some b)) (some a) (a :: l) :=
          chain_congr (fun c hc => hafter _ c (List.mem_append_left _ hc)) h1
        have hm' : Chain (rplacd cells splice (some b)) (rplacd cells splice (some b) b).cdr m := by
          rw [hafter _ b hb]
          exact chain_congr (fun c hc => hafter _ c
            (List.mem_append_right _ (List.mem_cons_of_mem _ hc))) hm
        obtain ⟨cells', hloop, hrelinked, hchain⟩ := ih
          (fun c hc => hcontents' _ c (hperm.mem_iff.mpr (List.mem_cons_of_mem _ hc))) hl' hm'
          hnodup'
          (by simp only [List.length_cons] at hn ⊢; omega)
        obtain ⟨hrelinked', hchain'⟩ := linked_of_rest hrelinked hchain
          fun hmem => hsplice (hperm.mem_iff.mpr hmem)
        rw [if_pos hp]
        refine ⟨cells', hloop, hrelinked'.mono ?_, ?_⟩
        · exact List.cons_subset_cons _ hperm.symm.subset
        · rw [List.cons_merge_cons_neg _ _ _ (by simpa [first] using hp)]
          exact hchain'
      · have hl' : Chain (rplacd cells splice (some a)) (rplacd cells splice (some a) a).cdr l := by
          rw [hafter _ a List.mem_cons_self]
          exact chain_congr (fun c hc => hafter _ c
            (List.mem_cons_of_mem _ (List.mem_append_left _ hc))) hl
        have hm' : Chain (rplacd cells splice (some a)) (some b) (b :: m) :=
          chain_congr (fun c hc => hafter _ c (List.mem_append_right _ hc)) h2
        obtain ⟨cells', hloop, hrelinked, hchain⟩ := ih
          (fun c hc => hcontents' _ c (List.mem_cons_of_mem _ hc)) hl' hm' hlm
          (by simp only [List.length_cons] at hn ⊢; omega)
        obtain ⟨hrelinked', hchain'⟩ := linked_of_rest hrelinked hchain hsplice
        rw [if_neg hp]
        refine ⟨cells', hloop, hrelinked', ?_⟩
        rw [List.cons_merge_cons_pos _ _ _ (by simpa [first] using hp)]
        exact hchain'

/-! ## Lists of a heap -/

variable {nil : α} {heap heap' heap'' : Heap α} {list1 list2 link : Option ℕ} {fuel : ℕ}

/-- Only links of some conses are changed; new conses are taken. -/
structure Changes (heap heap' : Heap α) (addresses : List ℕ) : Prop where
  next : heap.next ≤ heap'.next
  car : ∀ a < heap.next, (heap'.cells a).car = (heap.cells a).car
  same : ∀ a < heap.next, a ∉ addresses → heap'.cells a = heap.cells a

theorem Changes.mono {addresses addresses' : List ℕ} (h : Changes heap heap' addresses)
    (hsub : addresses ⊆ addresses') : Changes heap heap' addresses' where
  next := h.next
  car := h.car
  same a ha hmem := h.same a ha fun hmem' => hmem (hsub hmem')

theorem Changes.trans {addresses : List ℕ} (h : Changes heap heap' addresses)
    (h' : Changes heap' heap'' addresses) : Changes heap heap'' addresses where
  next := h.next.trans h'.next
  car a ha := (h'.car a (ha.trans_le h.next)).trans (h.car a ha)
  same a ha hmem := (h'.same a (ha.trans_le h.next) hmem).trans (h.same a ha hmem)

theorem IsList.changes {addresses : List ℕ} (h : IsList heap link l)
    (hchanges : Changes heap heap' addresses) (hdisjoint : ∀ a ∈ l, a ∉ addresses) :
    IsList heap' link l where
  chain := chain_congr (fun a ha => hchanges.same a (h.inUse a ha) (hdisjoint a ha)) h.chain
  nodup := h.nodup
  inUse a ha := (h.inUse a ha).trans_le hchanges.next

theorem changes_cons (x : α) (rest : Option ℕ) : Changes heap (cons heap x rest).1 [] where
  next := Nat.le_succ _
  car _ ha := congrArg Cell.car (Function.update_of_ne ha.ne _ _)
  same _ ha _ := Function.update_of_ne ha.ne _ _

/-- The conses hold some elements. -/
def Contains (heap : Heap α) (contents : ℕ → α) (addresses : List ℕ) : Prop :=
  ∀ a ∈ addresses, (heap.cells a).car = contents a

theorem Contains.changes {addresses : List ℕ} (h : Contains heap contents l)
    (hlist : IsList heap link l) (hchanges : Changes heap heap' addresses) :
    Contains heap' contents l :=
  fun a ha => (hchanges.car a (hlist.inUse a ha)).trans (h a ha)

theorem Contains.subset (h : Contains heap contents l) (hsub : m ⊆ l) :
    Contains heap contents m :=
  fun a ha => h a (hsub ha)

/-- **`merge-lists`** -/
theorem mergeLists_spec (nil : α) (predicate : κ → κ → Bool) (key : α → κ)
    (h1 : IsList heap list1 l) (h2 : IsList heap list2 m) (hdisjoint : l.Disjoint m)
    (hcontents : Contains heap contents (l ++ m)) (hfuel : l.length + m.length < fuel) :
    ∃ heap' link, mergeLists nil predicate key fuel heap list1 list2 = .ok (heap', link) ∧
      IsList heap' link (l.merge m (first predicate (key ∘ contents))) ∧
      Changes heap heap' (l ++ m) := by
  have hcons : Changes heap (cons heap nil none).1 [] := changes_cons nil none
  have hinUse : ∀ a ∈ l ++ m, a < heap.next := fun a ha =>
    (List.mem_append.mp ha).elim (h1.inUse a) (h2.inUse a)
  have hnodup : (heap.next :: (l ++ m)).Nodup :=
    List.nodup_cons.mpr ⟨fun ha => lt_irrefl _ (hinUse _ ha), h1.nodup.append h2.nodup hdisjoint⟩
  obtain ⟨cells', hloop, hrelinked, hchain⟩ := @mergeLoop_spec _ _ predicate key _ contents _ _ _ _
    _ _ (fun a ha => (hcons.car a (hinUse a ha)).trans (hcontents a ha))
    (h1.changes hcons (by simp)).chain (h2.changes hcons (by simp)).chain hnodup hfuel
  have hperm : (l.merge m (first predicate (key ∘ contents))).Perm (l ++ m) :=
    List.merge_perm_append _
  refine ⟨⟨cells', heap.next + 1⟩, _, ?_, ⟨hchain, ?_, fun a ha => ?_⟩, ?_⟩
  · rw [mergeLists]
    simp only [hloop]
    rfl
  · exact hperm.nodup_iff.mpr (List.nodup_cons.mp hnodup).2
  · exact (hinUse a (hperm.mem_iff.mp ha)).trans (Nat.lt_succ_self _)
  · refine ⟨Nat.le_succ _, fun a ha => ?_, fun a ha hmem => ?_⟩
    · exact (hrelinked.car a).trans (hcons.car a ha)
    · refine (hrelinked.same a ?_).trans (hcons.same a ha List.not_mem_nil)
      exact List.not_mem_cons_of_ne_of_not_mem ha.ne hmem

/-! ## Splitting -/

theorem nthcdr_of_chain {a : ℕ} {rest : List ℕ} : ∀ {front : List ℕ} {link : Option ℕ},
    Chain cells link (front ++ a :: rest) → nthcdr cells front.length link = some a
  | [], _, h => (chain_cons h).1
  | _ :: front, _, h => by
    obtain ⟨rfl, hrest⟩ := chain_cons h
    exact @nthcdr_of_chain a rest front _ hrest

theorem IsList.cut {front rest : List ℕ} {a : ℕ} (h : IsList heap link (front ++ a :: rest)) :
    IsList { heap with cells := rplacd heap.cells a none } link (front ++ [a]) ∧
      IsList { heap with cells := rplacd heap.cells a none } (heap.cells a).cdr rest ∧
      Changes heap { heap with cells := rplacd heap.cells a none } [a] := by
  have hsplit : front ++ a :: rest = (front ++ [a]) ++ rest := by simp
  obtain ⟨hfront, hrest, hdisjoint⟩ := List.nodup_append'.mp (hsplit ▸ h.nodup)
  have hchanges : Changes heap { heap with cells := rplacd heap.cells a none } [a] :=
    ⟨le_rfl, fun b _ => rplacd_car b none, fun b _ hb => rplacd_of_ne (by simpa using hb) none⟩
  have hrest' : IsList heap (heap.cells a).cdr rest :=
    ⟨(chain_cons (chain_append h.chain)).2, hrest, fun b hb => h.inUse b (by simp [hb])⟩
  have hinUse : ∀ b ∈ front ++ [a], b < heap.next :=
    fun b hb => h.inUse b (hsplit ▸ List.mem_append_left rest hb)
  refine ⟨⟨?_, hfront, hinUse⟩, hrest'.changes hchanges fun b hb hba => ?_, hchanges⟩
  · refine chain_replace (fun b hb => rplacd_of_ne ?_ none) h.chain ⟨rfl, ?_⟩
    · rintro rfl
      exact List.disjoint_of_nodup_append hfront hb List.mem_cons_self
    · rw [rplacd_cdr_self]
      trivial
  · exact hdisjoint (by simpa using Or.inr (List.mem_singleton.mp hba)) hb

theorem stablySorted_self {x : List α} (h : Sorted predicate key x) :
    StablySorted predicate key x x :=
  ⟨.refl _, h, fun _ => rfl⟩

theorem stablySorted_of_length_le_one {x : List α} (hlength : x.length ≤ 1) :
    StablySorted predicate key x x := by
  match x with
  | [] => exact stablySorted_self .nil
  | [_] => exact stablySorted_self (List.pairwise_singleton _ _)

/-- **`mergesort`** -/
theorem mergesort_spec (h : StrictWeakOrder predicate) (nil : α) (key : α → κ)
    (hl : IsList heap link l) (hcontents : Contains heap contents l) (hfuel : l.length < fuel)
    (hn : l.length ≤ n) (hpos : 0 < n) :
    ∃ heap' link' l', mergesort nil predicate key fuel n heap link l.length = .ok (heap', link') ∧
      IsList heap' link' l' ∧ Changes heap heap' l ∧
      StablySorted predicate (key ∘ contents) l l' := by
  induction n generalizing heap link l with
  | zero => omega
  | succ n ih =>
    rw [mergesort]
    by_cases hone : l.length ≤ 1
    · rw [if_pos hone]
      exact ⟨heap, link, l, rfl, hl, ⟨le_rfl, fun _ _ => rfl, fun _ _ _ => rfl⟩,
        stablySorted_of_length_le_one hone⟩
    rw [if_neg hone]
    obtain ⟨front, a, rest, rfl, hfront⟩ : ∃ front a rest, l = front ++ a :: rest ∧
        front.length = l.length / 2 - 1 := by
      have hlt : l.length / 2 - 1 < l.length := by omega
      exact ⟨l.take (l.length / 2 - 1), l[l.length / 2 - 1], l.drop (l.length / 2 - 1 + 1), by
        rw [← List.drop_eq_getElem_cons hlt, List.take_append_drop], List.length_take_of_le hlt.le⟩
    have hnth := nthcdr_of_chain hl.chain
    have hlength1 : (front ++ a :: rest).length / 2 = (front ++ [a]).length := by
      have hlength : (front ++ [a]).length = front.length + 1 := List.length_append
      omega
    have hlength2 : (front ++ a :: rest).length - (front ++ [a]).length = rest.length := by
      simp only [List.length_append, List.length_cons, List.length_nil]
      omega
    have hsplit : front ++ a :: rest = (front ++ [a]) ++ rest := by simp
    obtain ⟨-, -, hdisjoint⟩ := List.nodup_append'.mp (hsplit ▸ hl.nodup)
    have hsub1 : front ++ [a] ⊆ front ++ a :: rest := hsplit ▸ List.subset_append_left _ _
    have hsub2 : rest ⊆ front ++ a :: rest := hsplit ▸ List.subset_append_right _ _
    obtain ⟨hlist1, hlist2, hcut⟩ := hl.cut
    have hcontents1 := hcontents.changes hl hcut
    obtain ⟨heap2, link1, l1, hrun1, hlist1', hchanges1, hstable1⟩ :=
      ih hlist1 (hcontents1.subset hsub1) (by omega) (by omega) (by omega)
    have hcontents2 := (hcontents1.subset hsub2).changes hlist2 hchanges1
    obtain ⟨heap3, link2, l2, hrun2, hlist2', hchanges2, hstable2⟩ :=
      ih (hlist2.changes hchanges1 fun b hb hb' => hdisjoint hb' hb) hcontents2 (by omega)
        (by omega) (by omega)
    have hsub1' : l1 ⊆ front ++ a :: rest := fun b hb => hsub1 (hstable1.perm.subset hb)
    have hsub2' : l2 ⊆ front ++ a :: rest := fun b hb => hsub2 (hstable2.perm.subset hb)
    have hsub : l1 ++ l2 ⊆ front ++ a :: rest := List.append_subset.mpr ⟨hsub1', hsub2'⟩
    have hdisjoint' : l1.Disjoint l2 := fun b hb1 hb2 =>
      hdisjoint (hstable1.perm.subset hb1) (hstable2.perm.subset hb2)
    have hlist1'' := hlist1'.changes hchanges2 fun b hb1 hb2 =>
      hdisjoint (hstable1.perm.subset hb1) hb2
    have hchanges : Changes heap heap3 (front ++ a :: rest) :=
      ((hcut.mono (by simp)).trans (hchanges1.mono hsub1)).trans (hchanges2.mono hsub2)
    have hlengths : l1.length + l2.length < fuel := by
      rw [hstable1.perm.length_eq, hstable2.perm.length_eq]
      omega
    obtain ⟨heap4, link', hrun, hlist, hchanges'⟩ := mergeLists_spec nil predicate key hlist1''
      hlist2' hdisjoint' ((hcontents.changes hl hchanges).subset hsub) hlengths
    refine ⟨heap4, link', _, ?_, hlist, hchanges.trans (hchanges'.mono hsub), ?_⟩
    · have hlast : (front ++ [a]).length - 1 = front.length := by simp
      simp only [hlength1, hlength2, hlast, hnth, hrun1]
      change (mergesort nil predicate key fuel n heap2 (heap.cells a).cdr rest.length >>= _) = _
      rw [hrun2]
      exact hrun
    · rw [hsplit]
      exact stablySorted_merge h hstable1 hstable2

/-! ## Lists and their elements -/

variable {sequence sequence1 sequence2 : Sequence α} {elements elements1 elements2 : List α}

theorem length_of_chain : ∀ {link : Option ℕ} {l : List ℕ} {n : ℕ}, Chain cells link l →
    l.length ≤ n → length cells n link = .ok l.length
  | _, [], n, h, _ => by
    obtain rfl := chain_nil h
    cases n <;> rfl
  | _, a :: l, n + 1, h, hn => by
    obtain ⟨rfl, hrest⟩ := chain_cons h
    rw [length, length_of_chain hrest (Nat.le_of_succ_le_succ hn)]
    rfl

theorem elementsOf_of_chain : ∀ {link : Option ℕ} {l : List ℕ} {n : ℕ}, Chain cells link l →
    l.length ≤ n → elementsOf cells n link = .ok (cells.elements l)
  | _, [], n, h, _ => by
    obtain rfl := chain_nil h
    cases n <;> rfl
  | _, a :: l, n + 1, h, hn => by
    obtain ⟨rfl, hrest⟩ := chain_cons h
    rw [elementsOf, elementsOf_of_chain hrest (Nat.le_of_succ_le_succ hn)]
    rfl

theorem putElements_of_chain : ∀ {link : Option ℕ} {l : List ℕ} {n i : ℕ} {vector : List α},
    Chain cells link l → l.length ≤ n → i + l.length = vector.length →
      putElements cells n vector link i = .ok (vector.take i ++ cells.elements l)
  | _, [], n, i, vector, h, _, hi => by
    obtain rfl := chain_nil h
    have hput : putElements cells n vector none i = .ok vector := by cases n <;> rfl
    rw [hput, List.take_of_length_le (by simpa using hi.ge)]
    exact congrArg Except.ok (List.append_nil _).symm
  | _, a :: l, n + 1, i, vector, h, hn, hi => by
    obtain ⟨rfl, hrest⟩ := chain_cons h
    rw [List.length_cons] at hn hi
    have hlt : i < vector.length := by omega
    have hput := @putElements_of_chain (cells a).cdr l n (i + 1) (vector.set i (cells a).car) hrest
      (by omega) (by rw [List.length_set]; omega)
    rw [Nat.cast_succ] at hput
    rw [putElements, Sorting.setAref_eq hlt]
    simp only [hput]
    rw [List.take_succ_eq_append_getElem (by rwa [List.length_set]), List.take_set_of_le le_rfl,
      List.getElem_set_self, List.append_assoc]
    rfl

theorem Changes.elements_eq {addresses : List ℕ} (h : Changes heap heap' addresses)
    (hl : ∀ a ∈ l, a < heap.next) : heap'.cells.elements l = heap.cells.elements l :=
  List.map_congr_left fun a ha => h.car a (hl a ha)

theorem elements_eq_map (h : Contains heap contents l) : heap.cells.elements l = l.map contents :=
  List.map_congr_left h

theorem listOf_spec (heap : Heap α) : ∀ elements : List α, ∃ heap' link l,
    listOf heap elements = (heap', link) ∧ IsList heap' link l ∧ heap'.cells.elements l = elements ∧
      Changes heap heap' [] ∧ ∀ a ∈ l, heap.next ≤ a
  | [] => ⟨heap, none, [], rfl, ⟨trivial, .nil, nofun⟩, rfl,
      ⟨le_rfl, fun _ _ => rfl, fun _ _ _ => rfl⟩, nofun⟩
  | x :: elements => by
    obtain ⟨heap', link, l, hlist, hl, helements, hchanges, hnew⟩ := listOf_spec heap elements
    have hcons : Changes heap' (cons heap' x link).1 [] := changes_cons x link
    have hl' := hl.changes hcons (by simp)
    have hfirst : (cons heap' x link).1.cells heap'.next = ⟨x, link⟩ := Function.update_self _ _ _
    refine ⟨(cons heap' x link).1, some heap'.next, heap'.next :: l, by rw [listOf, hlist]; rfl,
      ⟨⟨rfl, ?_⟩, ?_, ?_⟩, ?_, hchanges.trans hcons, ?_⟩
    · rw [hfirst]
      exact hl'.chain
    · exact List.nodup_cons.mpr ⟨fun hmem => lt_irrefl _ (hl.inUse _ hmem), hl.nodup⟩
    · exact List.forall_mem_cons.mpr ⟨Nat.lt_succ_self _, hl'.inUse⟩
    · rw [← helements, ← hcons.elements_eq hl.inUse]
      exact congrArg (· :: _) (congrArg Cell.car hfirst)
    · exact List.forall_mem_cons.mpr ⟨hchanges.next, hnew⟩

theorem coerceToList_spec (h : Holds heap l elements sequence) : ∃ heap' link l',
    coerceToList heap sequence = (heap', link) ∧ IsList heap' link l' ∧
      heap'.cells.elements l' = elements ∧ Changes heap heap' [] ∧
      ∀ a ∈ l', a ∈ l ∨ heap.next ≤ a := by
  cases sequence with
  | list link =>
    obtain ⟨hl, rfl⟩ := h
    exact ⟨heap, link, l, rfl, hl, rfl, ⟨le_rfl, fun _ _ => rfl, fun _ _ _ => rfl⟩,
      fun a ha => .inl ha⟩
  | vector xs =>
    obtain ⟨rfl, rfl⟩ := h
    obtain ⟨heap', link, l', hlist, hl', helements, hchanges, hnew⟩ := listOf_spec heap elements
    exact ⟨heap', link, l', hlist, hl', helements, hchanges, fun a ha => .inr (hnew a ha)⟩

theorem Holds.inUse (h : Holds heap l elements sequence) : ∀ a ∈ l, a < heap.next := by
  cases sequence with
  | list link => exact h.1.inUse
  | vector xs =>
    obtain ⟨rfl, -⟩ := h
    exact nofun

theorem Holds.changes (h : Holds heap l elements sequence) (hchanges : Changes heap heap' []) :
    Holds heap' l elements sequence := by
  cases sequence with
  | list link =>
    obtain ⟨hl, rfl⟩ := h
    exact ⟨hl.changes hchanges (by simp), (hchanges.elements_eq hl.inUse).symm⟩
  | vector xs => exact h

/-- **`mergesort-list`** -/
theorem mergesortList_spec (horder : StrictWeakOrder predicate) (nil : α) (key : α → κ)
    (hl : IsList heap link l) (hfuel : l.length < fuel) :
    ∃ heap' link' l', mergesortList nil predicate key fuel heap link = .ok (heap', link') ∧
      IsList heap' link' l' ∧ Changes heap heap' l ∧
      StablySorted predicate key (heap.cells.elements l) (heap'.cells.elements l') := by
  have hcontents : Contains heap (fun a => (heap.cells a).car) l := fun _ _ => rfl
  obtain ⟨heap', link', l', hrun, hl', hchanges, hstable⟩ :=
    mergesort_spec horder nil key hl hcontents hfuel hfuel.le (Nat.zero_lt_of_lt hfuel)
  have hcontents' : Contains heap' (fun a => (heap.cells a).car) l' :=
    (hcontents.changes hl hchanges).subset hstable.perm.subset
  refine ⟨heap', link', l', ?_, hl', hchanges, ?_⟩
  · rw [mergesortList, length_of_chain hl.chain hfuel.le]
    exact hrun
  · rw [elements_eq_map hcontents, elements_eq_map hcontents']
    exact hstable.map

/-- **`stable-sort`** -/
theorem stableSort_holds (horder : StrictWeakOrder predicate) (nil : α) (key : α → κ)
    (h : Holds heap l elements sequence) (hfuel : elements.length < fuel) :
    ∃ heap' sequence' l' elements',
      stableSort nil predicate key fuel heap sequence = .ok (heap', sequence') ∧
        SameKind sequence sequence' ∧ Holds heap' l' elements' sequence' ∧
        StablySorted predicate key elements elements' := by
  cases sequence with
  | list link =>
    obtain ⟨hl, rfl⟩ := h
    rw [Cells.elements, List.length_map] at hfuel
    obtain ⟨heap', link', l', hrun, hl', -, hstable⟩ :=
      mergesortList_spec horder nil key hl hfuel
    refine ⟨heap', .list link', l', _, ?_, trivial, ⟨hl', rfl⟩, hstable⟩
    rw [stableSort, hrun]
    rfl
  | vector xs =>
    obtain ⟨rfl, rfl⟩ := h
    obtain ⟨heap₁, link, l, hlist, hl, helements, -, -⟩ := listOf_spec heap elements
    have hlength : l.length = elements.length := by
      rw [← helements, Cells.elements, List.length_map]
    obtain ⟨heap', link', l', hrun, hl', -, hstable⟩ :=
      mergesortList_spec horder nil key hl (hlength ▸ hfuel)
    rw [helements] at hstable
    have hlength' : l'.length = elements.length := by
      rw [← hstable.perm.length_eq, Cells.elements, List.length_map]
    have hput := @putElements_of_chain α heap'.cells link' l' fuel 0 elements hl'.chain (by omega)
      (by omega)
    refine ⟨heap', .vector (heap'.cells.elements l'), [], _, ?_, trivial, ⟨rfl, rfl⟩, hstable⟩
    rw [stableSort, hlist]
    simp only [hrun]
    change (putElements heap'.cells fuel elements link' (0 : ℕ) >>= _) = _
    rw [hput]
    rfl

/-- The kind of sequence that a result type asks for. -/
def IsOfType : ResultType → Sequence α → Prop
  | .list, .list _ | .vector, .vector _ => True
  | _, _ => False

/-- **`merge`**, of sequences with no cons in common. -/
theorem merge_holds (horder : StrictWeakOrder predicate) (nil : α) (key : α → κ)
    (h1 : Holds heap l elements1 sequence1) (h2 : Holds heap m elements2 sequence2)
    (hdisjoint : l.Disjoint m) (hsorted1 : Sorted predicate key elements1)
    (hsorted2 : Sorted predicate key elements2)
    (hfuel : elements1.length + elements2.length < fuel) {resultType : ResultType}
    (htype : resultType = .list ∨ resultType = .vector) :
    ∃ heap' sequence' l' elements',
      merge nil predicate key fuel heap resultType sequence1 sequence2 = .ok (heap', sequence') ∧
        IsOfType resultType sequence' ∧ Holds heap' l' elements' sequence' ∧
        StablySorted predicate key (elements1 ++ elements2) elements' := by
  obtain ⟨heap₁, list1, l₁, hcoerce1, hl₁, helements1, hchanges1, hnew1⟩ := coerceToList_spec h1
  obtain ⟨heap₂, list2, l₂, hcoerce2, hl₂, helements2, hchanges2, hnew2⟩ :=
    coerceToList_spec (h2.changes hchanges1)
  have hl₁' : IsList heap₂ list1 l₁ := hl₁.changes hchanges2 (by simp)
  have hdisjoint' : l₁.Disjoint l₂ := by
    intro a ha1 ha2
    have hlt := hl₁.inUse a ha1
    have hm : a ∈ m := (hnew2 a ha2).resolve_right hlt.not_ge
    exact hdisjoint ((hnew1 a ha1).resolve_right (h2.inUse a hm).not_ge) hm
  have hcontents : Contains heap₂ (fun a => (heap₂.cells a).car) (l₁ ++ l₂) := fun _ _ => rfl
  have helements1' : heap₂.cells.elements l₁ = elements1 :=
    (hchanges2.elements_eq hl₁.inUse).trans helements1
  have hlength1 : l₁.length = elements1.length := by
    rw [← helements1', Cells.elements, List.length_map]
  have hlength2 : l₂.length = elements2.length := by
    rw [← helements2, Cells.elements, List.length_map]
  obtain ⟨heap₃, link, hrun, hl₃, hchanges3⟩ :=
    mergeLists_spec nil predicate key hl₁' hl₂ hdisjoint' hcontents (by rwa [hlength1, hlength2])
  have hsorted1' : Sorted predicate (key ∘ fun a => (heap₂.cells a).car) l₁ := by
    rw [← helements1'] at hsorted1
    exact sorted_map.mp hsorted1
  have hsorted2' : Sorted predicate (key ∘ fun a => (heap₂.cells a).car) l₂ := by
    rw [← helements2] at hsorted2
    exact sorted_map.mp hsorted2
  have hstable := stablySorted_merge horder (stablySorted_self hsorted1')
    (stablySorted_self hsorted2')
  have hinUse : ∀ a ∈ l₁ ++ l₂, a < heap₂.next := fun a ha =>
    (List.mem_append.mp ha).elim (hl₁'.inUse a) (hl₂.inUse a)
  have helements3 : heap₃.cells.elements
      (l₁.merge l₂ (first predicate (key ∘ fun a => (heap₂.cells a).car))) = _ :=
    hchanges3.elements_eq fun a ha => hinUse a (hstable.perm.subset ha)
  have hmap := hstable.map
  rw [List.map_append] at hmap
  change StablySorted predicate key (heap₂.cells.elements l₁ ++ heap₂.cells.elements l₂)
    (heap₂.cells.elements _) at hmap
  rw [helements1', helements2, ← helements3] at hmap
  obtain rfl | rfl := htype
  · refine ⟨heap₃, .list link, _, _, ?_, trivial, ⟨hl₃, rfl⟩, hmap⟩
    rw [merge, hcoerce1]
    simp only [hcoerce2, hrun]
    rfl
  · refine ⟨heap₃, .vector _, [], _, ?_, trivial, ⟨rfl, rfl⟩, hmap⟩
    have hlength3 := hstable.perm.length_eq
    rw [List.length_append] at hlength3
    have helementsOf := elementsOf_of_chain hl₃.chain (n := fuel) (by omega)
    rw [merge, hcoerce1]
    simp only [hcoerce2, hrun]
    change (elementsOf heap₃.cells fuel link >>= _) = _
    rw [helementsOf]
    rfl

/-! ## The theorem -/

/-- **Stable sorting and merging**, by a strict weak order. -/
theorem stableSort_spec (horder : StrictWeakOrder predicate) (nil : α) (key : α → κ)
    (heap : Heap α) (fuel : ℕ) :
    (∀ sequence l elements, Holds heap l elements sequence → elements.length < fuel →
      ∃ heap' sequence' l' elements',
        stableSort nil predicate key fuel heap sequence = .ok (heap', sequence') ∧
          SameKind sequence sequence' ∧ Holds heap' l' elements' sequence' ∧
          StablySorted predicate key elements elements') ∧
    ∀ sequence1 sequence2 l m elements1 elements2 resultType,
      Holds heap l elements1 sequence1 → Holds heap m elements2 sequence2 → l.Disjoint m →
      Sorted predicate key elements1 → Sorted predicate key elements2 →
      elements1.length + elements2.length < fuel →
      resultType = .list ∨ resultType = .vector →
      ∃ heap' sequence' l' elements',
        merge nil predicate key fuel heap resultType sequence1 sequence2 =
            .ok (heap', sequence') ∧
          IsOfType resultType sequence' ∧ Holds heap' l' elements' sequence' ∧
          StablySorted predicate key (elements1 ++ elements2) elements' :=
  ⟨fun _ _ _ h hfuel => stableSort_holds horder nil key h hfuel,
    fun _ _ _ _ _ _ _ h1 h2 hdisjoint hsorted1 hsorted2 hfuel htype =>
      merge_holds horder nil key h1 h2 hdisjoint hsorted1 hsorted2 hfuel htype⟩

/-- A vector of pairs by their first numbers, and two more. -/
theorem stableSort_spec_pairs :
    (∃ heap' sequence' l' elements',
      stableSort (0, 0) (· < · : ℕ → ℕ → Bool) Prod.fst 4 ⟨fun _ => ⟨(0, 0), none⟩, 0⟩
          (.vector [(2, 0), (1, 1), (2, 2)]) = .ok (heap', sequence') ∧
        SameKind (.vector [(2, 0), (1, 1), (2, 2)]) sequence' ∧
        Holds heap' l' elements' sequence' ∧
        StablySorted (· < · : ℕ → ℕ → Bool) Prod.fst [(2, 0), (1, 1), (2, 2)] elements') ∧
    ∃ heap' sequence' l' elements',
      merge (0, 0) (· < · : ℕ → ℕ → Bool) Prod.fst 4 ⟨fun _ => ⟨(0, 0), none⟩, 0⟩ .list
          (.vector [(1, 1), (2, 0)]) (.vector [(2, 2)]) = .ok (heap', sequence') ∧
        IsOfType .list sequence' ∧ Holds heap' l' elements' sequence' ∧
        StablySorted (· < · : ℕ → ℕ → Bool) Prod.fst ([(1, 1), (2, 0)] ++ [(2, 2)])
          elements' := by
  obtain ⟨hsorts, hmerges⟩ := stableSort_spec Sorting.strictWeakOrder_lt ((0, 0) : ℕ × ℕ) Prod.fst
    ⟨fun _ => ⟨(0, 0), none⟩, 0⟩ 4
  exact ⟨hsorts _ [] _ ⟨rfl, rfl⟩ (by decide),
    hmerges _ _ [] [] _ _ _ ⟨rfl, rfl⟩ ⟨rfl, rfl⟩ (by simp) (by simp [Sorted]) (by simp [Sorted])
      (by decide) (.inl rfl)⟩

end Xcl.Merging
