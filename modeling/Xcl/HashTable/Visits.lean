import Xcl.Equality.Coherent
import Xcl.HashTable.Sound

/-!
# `maphash` visits every entry once

* `Follows`: the methods of a class do what those of `EqlHashTable` do;
* **`maphash_iff`**: in every run, and for the four tests.
-/

namespace Xcl.HashTable

variable {T κ ν σ : Type} [DecidableEq κ] {R : Runtime κ} {kind : Kind}

variable (R kind) in
/-- The methods do to their tables what those without a cache do. -/
structure Follows (C : Class T κ ν) (Good : T → Prop) : Prop where
  get : ∀ {t}, Good t → ∀ {key value}, get R kind (C.table t) key = some value →
    ∃ t', C.get t key = some (t', value) ∧ C.table t' = C.table t ∧ Good t'
  put : ∀ {t}, Good t → ∀ {key value table}, put R kind (C.table t) key value = some table →
    ∃ t', C.put t key value = some t' ∧ C.table t' = table ∧ Good t'
  remove : ∀ {t}, Good t → ∀ {key value table},
    remove R kind (C.table t) key = some (table, value) →
    ∃ t', C.remove t key = some (t', value) ∧ C.table t' = table ∧ Good t'

theorem follows_chained :
    Follows R kind (chained R kind : Class (Table κ ν) κ ν) fun _ => True where
  get {t} _ {key value} h := by
    refine ⟨t, ?_, rfl, trivial⟩
    show (HashTable.get R kind t key).map _ = _
    rw [show HashTable.get R kind t key = some value from h]
    rfl
  put {_} _ {_ _ table} h := ⟨table, h, rfl, trivial⟩
  remove {_} _ {_ _ table} h := ⟨table, h, rfl, trivial⟩

theorem follows_eqClass (O : Objects) :
    Follows (runtime O) .eql (eqClass O : Class (EqTable ν) Value ν) (EqTable.Coherent O) where
  get {t} h {key value} hget := by
    obtain ⟨heq, hcoherent⟩ := EqTable.step_spec h (.gethash key)
    have hanswer : answer O t.toTable (.gethash key) = some (t.toTable, value) := by
      show (HashTable.get (runtime O) .eql t.toTable key).map _ = _
      rw [show HashTable.get (runtime O) .eql t.toTable key = some value from hget]
      rfl
    rw [hanswer] at heq
    obtain ⟨⟨t', v⟩, hstep, hpair⟩ := Option.map_eq_some_iff.mp heq
    obtain ⟨htable, rfl⟩ := Prod.mk.inj hpair
    exact ⟨t', hstep, htable, hcoherent t' v hstep⟩
  put {t} h {key value table} hput := by
    obtain ⟨heq, hcoherent⟩ := EqTable.put_spec h key value
    rw [show HashTable.put (runtime O) .eql t.toTable key value = some table from hput] at heq
    obtain ⟨t', hstep, rfl⟩ := Option.map_eq_some_iff.mp heq
    exact ⟨t', hstep, rfl, hcoherent t' hstep⟩
  remove {t} h {key value table} hremove := by
    obtain ⟨heq, hcoherent⟩ := EqTable.step_spec h (.remhash key)
    rw [show answer O t.toTable (.remhash key) = some (table, value) from hremove] at heq
    obtain ⟨⟨t', v⟩, hstep, hpair⟩ := Option.map_eq_some_iff.mp heq
    cases hpair
    exact ⟨t', hstep, rfl, hcoherent t' _ hstep⟩

/-! ## One call -/

/-- Where the entry of the key that is visited stands: at the end of the entries `V` that have been
visited before, nowhere, or as a new entry at the head of the list. -/
inductive Placed (V : List (Cell κ ν)) (a : ℕ) (k : κ) : Option ν → List (Cell κ ν) → Prop
  | gone : Placed V a k none V
  | linked (v : ν) : Placed V a k (some v) (V ++ [(a, k, v)])
  | again (b : ℕ) (v : ν) (hb : b ≠ a) : Placed V a k (some v) ((b, k, v) :: V)

variable (R kind) in
/-- The entry at `a` is being visited, and the entries `g` are still to come. -/
structure During (V g : List (Cell κ ν)) (a : ℕ) (k : κ) (value : Option ν) (t : Table κ ν)
    (G : List (List (Cell κ ν))) : Prop where
  sound : Sound R kind t G
  list : ∃ P, Placed V a k value P ∧ G[R.hash k &&& t.mask]? = some (P ++ g)
  next : Next t a (g.head?.map Prod.fst)
  room : value = none → t.count < t.threshold

section Call

variable {C : Class T κ ν} {Good : T → Prop} {V g : List (Cell κ ν)} {a : ℕ} {k : κ}
  {value : Option ν} {t : T} {G : List (List (Cell κ ν))}

omit [DecidableEq κ] in
theorem SameSize.refl (t : Table κ ν) : SameSize t t := ⟨rfl, rfl, rfl⟩

omit [DecidableEq κ] in
theorem SameSize.trans {t t' t'' : Table κ ν} (h : SameSize t t') (h' : SameSize t' t'') :
    SameSize t t'' :=
  ⟨h'.capacity.trans h.capacity, h'.mask.trans h.mask, h'.threshold.trans h.threshold⟩

/-- What a change does outside of the list of the key. -/
structure Elsewhere (i : ℕ) (G G' : List (List (Cell κ ν))) : Prop where
  length : G'.length = G.length
  eq : ∀ j ≠ i, G'[j]? = G[j]?

omit [DecidableEq κ] in
theorem Elsewhere.refl (i : ℕ) (G : List (List (Cell κ ν))) : Elsewhere i G G :=
  ⟨rfl, fun _ _ => rfl⟩

omit [DecidableEq κ] in
theorem Elsewhere.set (i : ℕ) (G : List (List (Cell κ ν))) (g : List (Cell κ ν)) :
    Elsewhere i G (G.set i g) :=
  ⟨List.length_set, fun _ hj => List.getElem?_set_ne (Ne.symm hj)⟩

omit [DecidableEq κ] in
theorem Elsewhere.trans {i : ℕ} {G G' G'' : List (List (Cell κ ν))} (h : Elsewhere i G G')
    (h' : Elsewhere i G' G'') : Elsewhere i G G'' :=
  ⟨h'.length.trans h.length, fun j hj => (h'.eq j hj).trans (h.eq j hj)⟩

omit [DecidableEq κ] in
theorem getElem?_set_of_some {i : ℕ} (hg : G[i]? = some g) (g' : List (Cell κ ν)) :
    (G.set i g')[i]? = some g' := List.getElem?_set_self (List.getElem?_eq_some_iff.mp hg).1

/-- **One change** of the entry that is visited. -/
theorem During.change (hC : Follows R kind C Good) (hgood : Good t)
    (hself : R.found kind k k = true) (hno : ∀ y ∈ V ++ g, R.found kind k y.2.1 = false)
    (hV : ∀ y ∈ V, y.1 ≠ a) (h : During R kind V g a k value (C.table t) G) (c : Change κ ν) :
    ∃ t' G', C.change k t c = some t' ∧ Good t' ∧ SameSize (C.table t) (C.table t') ∧
      During R kind V g a k (c.apply value) (C.table t') G' ∧
      Elsewhere (R.hash k &&& (C.table t).mask) G G' := by
  obtain ⟨P, hplaced, hlist⟩ := h.list
  have hsound := h.sound
  have hVno : ∀ y ∈ V, R.found kind k y.2.1 = false := fun y hy =>
    hno y (List.mem_append_left g hy)
  cases c with
  | gethash other =>
    obtain ⟨found, hget⟩ := hsound.get other
    obtain ⟨t', hchange, htable, hgood'⟩ := hC.get hgood hget
    refine ⟨t', G, by simp [Class.change, hchange], hgood', htable ▸ SameSize.refl _, ?_,
      Elsewhere.refl _ _⟩
    rw [htable]
    exact h
  | puthash v =>
    cases hplaced with
    | gone =>
      obtain ⟨table, hput, hsize, -, hsound', hnext⟩ :=
        hsound.put_new hlist hno (h.room rfl) v
      obtain ⟨t', hchange, rfl, hgood'⟩ := hC.put hgood hput
      obtain ⟨e, he, -⟩ := h.next
      have hne : (C.table t).heap.length ≠ a :=
        Nat.ne_of_gt (List.getElem?_eq_some_iff.mp he).1
      refine ⟨t', _, hchange, hgood', hsize, ⟨hsound', ⟨_, .again _ v hne, ?_⟩,
        hnext _ _ h.next, fun hvalue => nomatch hvalue⟩, Elsewhere.set _ _ _⟩
      rw [hsize.mask]
      exact getElem?_set_of_some hlist _
    | linked v₀ =>
      have hlist' : G[R.hash k &&& (C.table t).mask]? = some (V ++ (a, k, v₀) :: g) := by
        rw [hlist, List.append_assoc]
        rfl
      obtain ⟨table, hput, hsize, -, hsound', hnext⟩ := hsound.put_found hlist' hself hVno v
      obtain ⟨t', hchange, rfl, hgood'⟩ := hC.put hgood hput
      refine ⟨t', _, hchange, hgood', hsize, ⟨hsound', ⟨_, .linked v, ?_⟩,
        hnext _ _ h.next, fun hvalue => nomatch hvalue⟩, Elsewhere.set _ _ _⟩
      rw [hsize.mask, getElem?_set_of_some hlist', List.append_assoc]
      rfl
    | again b v₀ hb =>
      obtain ⟨table, hput, hsize, -, hsound', hnext⟩ :=
        hsound.put_found (show _ = some ([] ++ _) from hlist) hself nofun v
      obtain ⟨t', hchange, rfl, hgood'⟩ := hC.put hgood hput
      refine ⟨t', _, hchange, hgood', hsize, ⟨hsound', ⟨_, .again b v hb, ?_⟩,
        hnext _ _ h.next, fun hvalue => nomatch hvalue⟩, Elsewhere.set _ _ _⟩
      rw [hsize.mask]
      exact getElem?_set_of_some hlist _
  | remhash =>
    cases hplaced with
    | gone =>
      obtain ⟨t', hchange, htable, hgood'⟩ := hC.remove hgood (hsound.remove_none hlist hno)
      refine ⟨t', G, by simp [Class.change, hchange], hgood', htable ▸ SameSize.refl _, ?_,
        Elsewhere.refl _ _⟩
      rw [htable]
      exact h
    | linked v₀ =>
      have hlist' : G[R.hash k &&& (C.table t).mask]? = some (V ++ (a, k, v₀) :: g) := by
        rw [hlist, List.append_assoc]
        rfl
      obtain ⟨table, hremove, hsize, hcount, hsound', hnext⟩ :=
        hsound.remove_found hlist' hself hVno
      obtain ⟨t', hchange, rfl, hgood'⟩ := hC.remove hgood hremove
      refine ⟨t', _, by simp [Class.change, hchange], hgood', hsize, ⟨hsound', ⟨_, .gone, ?_⟩,
        hnext _ _ hV h.next, fun _ => ?_⟩, Elsewhere.set _ _ _⟩
      · rw [hsize.mask]
        exact getElem?_set_of_some hlist' _
      · have := hsound.le_threshold
        rw [hsize.threshold]
        omega
    | again b v₀ hb =>
      obtain ⟨table, hremove, hsize, hcount, hsound', hnext⟩ :=
        hsound.remove_found (show _ = some ([] ++ _) from hlist) hself nofun
      obtain ⟨t', hchange, rfl, hgood'⟩ := hC.remove hgood hremove
      refine ⟨t', _, by simp [Class.change, hchange], hgood', hsize, ⟨hsound', ⟨_, .gone, ?_⟩,
        hnext _ _ nofun h.next, fun _ => ?_⟩, Elsewhere.set _ _ _⟩
      · rw [hsize.mask]
        exact getElem?_set_of_some hlist _
      · have := hsound.le_threshold
        rw [hsize.threshold]
        omega

/-- **All changes of one call.** -/
theorem During.changes (hC : Follows R kind C Good) (hgood : Good t)
    (hself : R.found kind k k = true) (hno : ∀ y ∈ V ++ g, R.found kind k y.2.1 = false)
    (hV : ∀ y ∈ V, y.1 ≠ a) (h : During R kind V g a k value (C.table t) G)
    (l : List (Change κ ν)) :
    ∃ t' G', C.changes k t l = some t' ∧ Good t' ∧ SameSize (C.table t) (C.table t') ∧
      During R kind V g a k (l.foldl Change.apply value) (C.table t') G' ∧
      Elsewhere (R.hash k &&& (C.table t).mask) G G' := by
  induction l generalizing t G value with
  | nil => exact ⟨t, G, rfl, hgood, SameSize.refl _, h, Elsewhere.refl _ _⟩
  | cons c l ih =>
    obtain ⟨t₁, G₁, hchange, hgood₁, hsize₁, h₁, helse₁⟩ := h.change hC hgood hself hno hV c
    obtain ⟨t', G', hchanges, hgood', hsize', h', helse'⟩ := ih hgood₁ h₁
    rw [hsize₁.mask] at helse'
    refine ⟨t', G', ?_, hgood', hsize₁.trans hsize', h', helse₁.trans helse'⟩
    rw [Class.changes, List.foldlM_cons, hchange]
    exact hchanges

end Call

/-! ## The loops -/

variable (R kind) in
/-- Neither key passes the test against the other. -/
def Apart (x y : Cell κ ν) : Prop :=
  R.found kind x.2.1 y.2.1 = false ∧ R.found kind y.2.1 x.2.1 = false

section Placed

variable {V g P : List (Cell κ ν)} {a : ℕ} {k : κ} {value : Option ν}

omit [DecidableEq κ] in
/-- The entries that have been visited, and what the call has left of its own. -/
theorem Placed.perm (h : Placed V a k value P) :
    (P.map Prod.snd).Perm (V.map Prod.snd ++ (value.map fun v => (k, v)).toList) := by
  cases h with
  | gone => simp
  | linked v => simp
  | again b v hb =>
    simp only [List.map_cons, Option.map_some, Option.toList_some]
    exact (List.perm_append_singleton _ _).symm

theorem Placed.apart (h : Placed V a k value P) {v : ν}
    (hapart : (V ++ (a, k, v) :: g).Pairwise (Apart R kind)) :
    (P ++ g).Pairwise (Apart R kind) := by
  have hkeys : ∀ l : List (Cell κ ν), l.Pairwise (Apart R kind) ↔
      (l.map fun x => x.2.1).Pairwise fun k k' =>
        R.found kind k k' = false ∧ R.found kind k' k = false := by
    intro l
    rw [List.pairwise_map]
    rfl
  have hsymm : ∀ {k k' : κ}, (R.found kind k k' = false ∧ R.found kind k' k = false) →
      R.found kind k' k = false ∧ R.found kind k k' = false := And.symm
  rw [hkeys] at hapart ⊢
  cases h with
  | gone =>
    refine hapart.sublist ?_
    simp only [List.map_append, List.map_cons]
    exact (List.Sublist.refl _).append (List.sublist_cons_self _ _)
  | linked v' => simpa using hapart
  | again b v' hb =>
    have hperm : (V.map fun x => x.2.1) ++ k :: (g.map fun x => x.2.1) |>.Perm
        (k :: ((V.map fun x => x.2.1) ++ g.map fun x => x.2.1)) := List.perm_middle
    simp only [List.map_append, List.map_cons, List.cons_append] at hapart ⊢
    exact (hperm.pairwise_iff hsymm).mp hapart

end Placed

section Loops

variable {C : Class T κ ν} {Good : T → Prop} (function : Function T σ κ ν)

/-- The calls for the entries `g` of one list, of which `V` have been visited before. -/
structure Walked (C : Class T κ ν) (Good : T → Prop) (R : Runtime κ) (kind : Kind) (i : ℕ)
    (V g : List (Cell κ ν)) (t t' : T) (G G' : List (List (Cell κ ν)))
    (calls : List (Call κ ν)) : Prop where
  good : Good t'
  size : SameSize (C.table t) (C.table t')
  sound : Sound R kind (C.table t') G'
  elsewhere : Elsewhere i G G'
  entries : calls.map Call.entry = g.map Prod.snd
  left : ∃ W, G'[i]? = some W ∧
    (W.map Prod.snd).Perm (V.map Prod.snd ++ calls.filterMap Call.outcome)

/-- **The inner loop.** -/
theorem visitChain_spec (hC : Follows R kind C Good)
    (hself : ∀ key, R.found kind key key = true) {n i : ℕ} {t : T} (s : σ)
    {V g : List (Cell κ ν)} {G : List (List (Cell κ ν))} (hgood : Good t)
    (hsound : Sound R kind (C.table t) G) (hlist : G[i]? = some (V ++ g))
    (hapart : (V ++ g).Pairwise (Apart R kind)) (hn : g.length < n) :
    ∃ t' s' calls G', C.visitChain function n t s (g.head?.map Prod.fst) = some (t', s', calls) ∧
      Walked C Good R kind i V g t t' G G' calls := by
  induction g generalizing n t s V G with
  | nil =>
    obtain ⟨n, rfl⟩ : ∃ m, n = m + 1 := ⟨n - 1, by simp at hn; omega⟩
    refine ⟨t, s, [], G, rfl, hgood, SameSize.refl _, hsound, Elsewhere.refl _ _, rfl, V, ?_, ?_⟩
    · simpa using hlist
    · simp
  | cons x g ih =>
    obtain ⟨n, rfl⟩ : ∃ m, n = m + 1 := ⟨n - 1, by simp at hn; omega⟩
    obtain ⟨a, k, v⟩ := x
    obtain ⟨p, -, hseg⟩ := hsound.pointer hlist
    obtain ⟨r, -, rfl, next, ha, hrest⟩ := seg_append.mp hseg
    have hnext : next = g.head?.map Prod.fst := by
      cases g with
      | nil => exact hrest
      | cons y g => exact hrest.1
    have hi : R.hash k &&& (C.table t).mask = i := hsound.placed i _ hlist (a, k, v) (by simp)
    have hlinked : G[R.hash k &&& (C.table t).mask]? = some (V ++ [(a, k, v)] ++ g) := by
      rw [hi, hlist, List.append_assoc]
      rfl
    have hno : ∀ y ∈ V ++ g, R.found kind k y.2.1 = false := by
      intro y hy
      rw [List.pairwise_append, List.pairwise_cons] at hapart
      rcases List.mem_append.mp hy with hy | hy
      · exact (hapart.2.2 y hy (a, k, v) List.mem_cons_self).2
      · exact (hapart.2.1.1 y hy).1
    have hV : ∀ y ∈ V, y.1 ≠ a := by
      intro y hy
      obtain ⟨rest, hperm, -⟩ := Buckets.exists_flatten_perm hlist
      have hsep := (List.pairwise_append.mp (hsound.separate.perm hperm)).1
      exact (List.pairwise_append.mp hsep).2.2 y hy (a, k, v) List.mem_cons_self
    have hduring : During R kind V g a k (some v) (C.table t) G :=
      ⟨hsound, ⟨_, .linked v, hlinked⟩, ⟨_, ha, hnext⟩, fun h => nomatch h⟩
    -- the function is called, and the link is read afterwards
    obtain ⟨t₁, G₁, hchanges, hgood₁, hsize₁, h₁, helse₁⟩ :=
      hduring.changes hC hgood (hself k) hno hV (function t s k v).2
    obtain ⟨P, hplaced, hlist₁⟩ := h₁.list
    obtain ⟨e, he, hlink⟩ := h₁.next
    rw [hsize₁.mask, hi] at hlist₁
    rw [hi] at helse₁
    obtain ⟨t', s', calls, G', hrun, hwalked⟩ := ih (function t s k v).1 hgood₁ h₁.sound
      hlist₁ (hplaced.apart hapart) (by simpa using hn)
    obtain ⟨W, hW, hperm⟩ := hwalked.left
    refine ⟨t', s', ⟨k, v, (function t s k v).2⟩ :: calls, G', ?_, hwalked.good,
      hsize₁.trans hwalked.size, hwalked.sound, helse₁.trans hwalked.elsewhere, ?_, W, hW, ?_⟩
    · simp only [Class.visitChain, List.head?_cons, Option.map_some, ha, Option.bind_eq_bind,
        Option.bind_some, hchanges, he, hlink, hrun]
      rfl
    · rw [List.map_cons, List.map_cons, hwalked.entries]
      rfl
    · have houtcome : (Call.mk k v (function t s k v).2 :: calls).filterMap Call.outcome =
          (((function t s k v).2.foldl Change.apply (some v)).map fun v => (k, v)).toList ++
            calls.filterMap Call.outcome := by
        rw [List.filterMap_cons]
        unfold Call.outcome
        cases (function t s k v).2.foldl Change.apply (some v) <;> rfl
      rw [houtcome, ← List.append_assoc]
      exact hperm.trans (hplaced.perm.append_right _)

/-- **The outer loop**, from bucket `i - 1` down. -/
theorem visitBuckets_spec (hC : Follows R kind C Good)
    (hself : ∀ key, R.found kind key key = true) {i : ℕ} {t : T} (s : σ)
    {G : List (List (Cell κ ν))} (hgood : Good t) (hsound : Sound R kind (C.table t) G)
    (hi : i ≤ G.length)
    (hapart : ∀ j < i, ∀ g, G[j]? = some g → g.Pairwise (Apart R kind)) :
    ∃ t' s' calls G', C.visitBuckets function i t s = some (t', s', calls) ∧
      Sound R kind (C.table t') G' ∧ G'.length = G.length ∧ (∀ j, i ≤ j → G'[j]? = G[j]?) ∧
      calls.map Call.entry = (visited G i).map Prod.snd ∧
      ((G'.take i).flatten.map Prod.snd).Perm (calls.filterMap Call.outcome) := by
  induction i generalizing t s G with
  | zero =>
    exact ⟨t, s, [], G, rfl, hsound, rfl, fun _ _ => rfl, by simp [visited], by simp⟩
  | succ i ih =>
    have hg := List.getElem?_eq_getElem (l := G) (i := i) (by omega)
    generalize G[i] = g at hg
    obtain ⟨p, hp, hseg⟩ := hsound.pointer hg
    have hhead : p = g.head?.map Prod.fst := by
      cases g with
      | nil => exact hseg
      | cons y g => exact hseg.1
    obtain ⟨t₁, s₁, calls₁, G₁, hchain, hwalked⟩ := visitChain_spec function
      hC hself s (V := []) hgood hsound hg (hapart i (Nat.lt_succ_self i) g hg)
      (hsound.length_lt hg hseg)
    obtain ⟨W, hW, hperm⟩ := hwalked.left
    obtain ⟨t', s', calls, G', hrun, hsound', hlength, heq, hentries, hleft⟩ := ih s₁
      hwalked.good hwalked.sound (by rw [hwalked.elsewhere.length]; omega)
      fun j hj g' hg' => hapart j (by omega) g' (by
        rwa [hwalked.elsewhere.eq j (Nat.ne_of_lt hj)] at hg')
    have hbelow : visited G₁ i = visited G i := by
      have htake : G₁.take i = G.take i := by
        refine List.ext_getElem? fun j => ?_
        rw [List.getElem?_take, List.getElem?_take]
        split_ifs with hj
        · exact hwalked.elsewhere.eq j (Nat.ne_of_lt hj)
        · rfl
      rw [visited, visited, htake]
    refine ⟨t', s', calls₁ ++ calls, G', ?_, hsound', hlength.trans hwalked.elsewhere.length,
      fun j hj => ?_, ?_, ?_⟩
    · simp only [Class.visitBuckets, hp, hhead, Option.bind_eq_bind, Option.bind_some, hchain, hrun]
      rfl
    · rw [heq j (by omega), hwalked.elsewhere.eq j (by omega)]
    · rw [List.map_append, hwalked.entries, hentries, hbelow, visited_succ hg, List.map_append]
    · rw [List.take_add_one, heq i le_rfl, hW, List.filterMap_append]
      simp only [Option.toList_some, List.flatten_append, List.map_append, List.flatten_cons,
        List.flatten_nil, List.append_nil]
      exact (List.perm_append_comm.trans (hperm.append hleft))

end Loops

/-! ## What the search has to find -/

section Contents

variable {t : Table κ ν} {G : List (List (Cell κ ν))}

theorem Sound.contents (h : Sound R kind t G) : contents t = some (G.map (List.map Prod.snd)) := by
  refine mapM_walk h.chains fun g hg => ?_
  obtain ⟨i, hi⟩ := List.mem_iff_getElem?.mp hg
  obtain ⟨p, -, hseg⟩ := h.pointer hi
  exact h.length_lt hi hseg

theorem Sound.findsOwn_iff (h : Sound R kind t G) :
    FindsOwn R kind t ↔ ∀ g ∈ G, g.Pairwise (Apart R kind) := by
  have hbucket : ∀ g ∈ G, g.Pairwise (Apart R kind) ↔
      (g.map Prod.snd).Pairwise fun x y => R.found kind y.1 x.1 = false := by
    intro g hg
    rw [List.pairwise_map]
    refine ⟨fun hapart => hapart.imp And.right, fun hfinds => ?_⟩
    exact ((h.newer g hg).and hfinds).imp id
  unfold FindsOwn
  rw [h.contents]
  constructor
  · intro hfinds g hg
    exact (hbucket g hg).mpr (hfinds _ rfl _ (List.mem_map_of_mem hg))
  · rintro hapart _ ⟨⟩ bucket hmem
    obtain ⟨g, hg, rfl⟩ := List.mem_map.mp hmem
    exact (hbucket g hg).mp (hapart g hg)

theorem Sound.findsOwn_of_symm (h : Sound R kind t G)
    (hsymm : ∀ a b, R.found kind a b = R.found kind b a) : FindsOwn R kind t := by
  rw [h.findsOwn_iff]
  intro g hg
  refine (h.newer g hg).imp fun {x y} hxy => ⟨hxy, ?_⟩
  rw [hsymm]
  exact hxy

theorem Sound.nodup_keys (h : Sound R kind t G) (hself : ∀ key, R.found kind key key = true) :
    (G.flatten.map fun x => x.2.1).Nodup := by
  rw [List.Nodup, List.pairwise_map, List.pairwise_flatten]
  refine ⟨fun g hg => (h.newer g hg).imp fun {x y} hxy hkey => ?_, ?_⟩
  · rw [Newer, hkey, hself] at hxy
    cases hxy
  · rw [List.pairwise_iff_getElem]
    intro i j hi hj hij x hx y hy hkey
    have hxi := h.placed i _ (List.getElem?_eq_getElem hi) x hx
    have hyj := h.placed j _ (List.getElem?_eq_getElem hj) y hy
    rw [hkey, hyj] at hxi
    omega

end Contents

section Correct

variable {C : Class T κ ν} {Good : T → Prop} {t : T} {G : List (List (Cell κ ν))}

theorem visitsOnce_of_apart (hC : Follows R kind C Good)
    (hself : ∀ key, R.found kind key key = true) (hgood : Good t)
    (hsound : Sound R kind (C.table t) G) (hapart : ∀ g ∈ G, g.Pairwise (Apart R kind)) :
    VisitsOnce C t := by
  intro σ function s
  obtain ⟨t', s', calls, G', hrun, hsound', hlength, -, hentries, hleft⟩ :=
    visitBuckets_spec function hC hself s hgood hsound le_rfl
      fun j _ g hg => hapart g (List.mem_of_getElem? hg)
  have hcapacity : (C.table t).capacity = G.length := by
    rw [← hsound.chains.length, hsound.buckets_length]
  refine ⟨_, t', s', calls, _, hsound.contents, ?_, ?_, hsound'.contents, ?_⟩
  · rw [Class.maphash, hcapacity]
    exact hrun
  · rw [hentries, ← List.map_flatten]
    exact (visited_perm G).map Prod.snd
  · rw [← List.map_flatten]
    rwa [List.take_of_length_le hlength.le] at hleft

end Correct

/-! ## What a wrong find does -/

section Calls

variable {C : Class T κ ν} {function : Function T σ κ ν}

omit [DecidableEq κ] in
theorem visitChain_calls {n : ℕ} {t t' : T} {s s' : σ} {e : Option ℕ} {calls : List (Call κ ν)}
    (h : C.visitChain function n t s e = some (t', s', calls)) :
    calls.foldlM (fun t c => C.changes c.key t c.changes) t = some t' ∧
      ∀ c ∈ calls, ∃ t s, c.changes = (function t s c.key c.value).2 := by
  induction n generalizing t s e calls with
  | zero => cases h
  | succ n ih =>
    cases e with
    | none =>
      cases h
      exact ⟨rfl, nofun⟩
    | some a =>
      obtain ⟨e, -, h⟩ := Option.bind_eq_some_iff.mp h
      obtain ⟨t₁, hchanges, h⟩ := Option.bind_eq_some_iff.mp h
      obtain ⟨e₁, -, h⟩ := Option.bind_eq_some_iff.mp h
      obtain ⟨⟨t₂, s₂, rest⟩, hrest, h⟩ := Option.bind_eq_some_iff.mp h
      cases h
      obtain ⟨hfold, hcalls⟩ := ih hrest
      refine ⟨?_, fun c hc => ?_⟩
      · rw [List.foldlM_cons, hchanges]
        exact hfold
      · rcases List.mem_cons.mp hc with rfl | hc
        · exact ⟨t, s, rfl⟩
        · exact hcalls c hc

omit [DecidableEq κ] in
theorem visitBuckets_calls {i : ℕ} {t t' : T} {s s' : σ} {calls : List (Call κ ν)}
    (h : C.visitBuckets function i t s = some (t', s', calls)) :
    calls.foldlM (fun t c => C.changes c.key t c.changes) t = some t' ∧
      ∀ c ∈ calls, ∃ t s, c.changes = (function t s c.key c.value).2 := by
  induction i generalizing t s calls with
  | zero =>
    cases h
    exact ⟨rfl, nofun⟩
  | succ i ih =>
    obtain ⟨e, -, h⟩ := Option.bind_eq_some_iff.mp h
    obtain ⟨⟨t₁, s₁, calls₁⟩, hchain, h⟩ := Option.bind_eq_some_iff.mp h
    obtain ⟨⟨t₂, s₂, calls₂⟩, hrest, h⟩ := Option.bind_eq_some_iff.mp h
    cases h
    obtain ⟨hfold₁, hcalls₁⟩ := visitChain_calls hchain
    obtain ⟨hfold, hcalls⟩ := ih hrest
    refine ⟨?_, fun c hc => ?_⟩
    · rw [List.foldlM_append, hfold₁]
      exact hfold
    · rcases List.mem_append.mp hc with hc | hc
      · exact hcalls₁ c hc
      · exact hcalls c hc

omit [DecidableEq κ] in
theorem foldlM_single {α : Type} {step : T → α → Option T} (once : T → Option T) (p : α → Bool)
    {l : List α} (hp : ∀ c ∈ l, p c = true → ∀ t, step t c = once t)
    (hn : ∀ c ∈ l, p c = false → ∀ t, step t c = some t) (hcount : l.countP p = 1) (t : T) :
    l.foldlM step t = once t := by
  have hnone : ∀ l' : List α, (∀ c ∈ l', ∀ t, step t c = some t) → ∀ t,
      l'.foldlM step t = some t := by
    intro l'
    induction l' with
    | nil => exact fun _ _ => rfl
    | cons c l' ih =>
      intro hid t
      rw [List.foldlM_cons, hid c List.mem_cons_self]
      exact ih (fun c hc => hid c (List.mem_cons_of_mem _ hc)) t
  induction l with
  | nil => cases hcount
  | cons c l ih =>
    cases hc : p c with
    | true =>
      rw [List.countP_cons_of_pos hc] at hcount
      have hzero : l.countP p = 0 := by omega
      rw [List.foldlM_cons, hp c List.mem_cons_self hc]
      have hrest : ∀ t, l.foldlM step t = some t := hnone l fun c' hc' t => by
        refine hn c' (List.mem_cons_of_mem _ hc') ?_ t
        simpa using List.countP_eq_zero.mp hzero c' hc'
      cases once t with
      | none => rfl
      | some t' => exact hrest t'
    | false =>
      rw [List.countP_cons_of_neg (by simp [hc])] at hcount
      rw [List.foldlM_cons, hn c List.mem_cons_self hc]
      exact ih (fun c hc => hp c (List.mem_cons_of_mem _ hc))
        (fun c hc => hn c (List.mem_cons_of_mem _ hc)) hcount

end Calls

def removes (key : κ) : Function T Unit κ ν :=
  fun _ s k _ => (s, if k = key then [.remhash] else [])

section Wrong

variable {t : Table κ ν} {G : List (List (Cell κ ν))}

theorem findsOwn_of_visitsOnce (hself : ∀ key, R.found kind key key = true)
    (hsound : Sound R kind t G) (h : VisitsOnce (chained R kind) t) : FindsOwn R kind t := by
  rw [hsound.findsOwn_iff]
  intro g hg
  refine (List.pairwise_iff_getElem.mpr fun i j hi hj hij => ?_ : g.Pairwise fun x y =>
    R.found kind y.2.1 x.2.1 = false).imp₂ (fun _ _ hyx hxy => ⟨hxy, hyx⟩) (hsound.newer g hg)
  by_contra hfound
  rw [Bool.not_eq_false] at hfound
  obtain ⟨k, hk⟩ := List.mem_iff_getElem?.mp hg
  have hx : g[j] ∈ G.flatten := mem_flatten_of_getElem? hk (List.getElem_mem hj)
  have hplaced := hsound.placed k g hk g[j] (List.getElem_mem hj)
  -- the function that removes this key is called with it once
  obtain ⟨entries, t', s', calls, entries', hcontents, hrun, hcalls, hcontents', hleft⟩ :=
    h Unit (removes g[j].2.1) ()
  obtain ⟨hfold, hchanges⟩ := visitBuckets_calls hrun
  have hkeys : ∀ c ∈ calls, c.changes = if c.key = g[j].2.1 then [.remhash] else [] := by
    intro c hc
    obtain ⟨_, _, hc⟩ := hchanges c hc
    exact hc
  have hstart : contents t = some entries := hcontents
  rw [hsound.contents] at hstart
  cases hstart
  rw [← List.map_flatten] at hcalls
  have hcount : calls.countP (fun c => c.key == g[j].2.1) = 1 := by
    have hperm : (calls.map Call.key).Perm (G.flatten.map fun x => x.2.1) := by
      have hmap := hcalls.map Prod.fst
      rw [List.map_map, List.map_map] at hmap
      exact hmap
    have hone := List.count_eq_one_of_mem (hsound.nodup_keys hself)
      (List.mem_map_of_mem (f := fun x : Cell κ ν => x.2.1) hx)
    rw [← hperm.count_eq, List.count, List.countP_map] at hone
    exact hone
  rw [foldlM_single (fun t => (remove R kind t g[j].2.1).map Prod.fst)
    (fun c => c.key == g[j].2.1) (fun c hc hp t => ?_) (fun c hc hp t => ?_) hcount t] at hfold
  · -- what it removes is an entry before its own
    obtain ⟨z, hz⟩ : ∃ z, g.find? (fun y => R.found kind g[j].2.1 y.2.1) = some z := by
      rw [← Option.isSome_iff_exists, List.find?_isSome]
      exact ⟨g[i], List.getElem_mem hi, hfound⟩
    obtain ⟨hzfound, d₁, d₂, hsplit, hfirst⟩ := List.find?_eq_some_iff_append.mp hz
    have hd₁ : d₁.length ≤ i := by
      by_contra hlt
      have hmem : g[i] ∈ d₁ := by
        have hget : g[i]? = d₁[i]? := by
          rw [hsplit, List.getElem?_append_left (by omega)]
        rw [List.getElem?_eq_getElem hi] at hget
        exact List.mem_of_getElem? hget.symm
      simpa [hfound] using hfirst _ hmem
    have hkept : g[j] ∈ d₁ ++ d₂ := by
      obtain ⟨m, hm⟩ : ∃ m, j = d₁.length + (m + 1) := ⟨j - d₁.length - 1, by omega⟩
      have hget : g[j]? = d₂[m]? := by
        rw [hsplit, hm, List.getElem?_append_right (Nat.le_add_right _ _), Nat.add_sub_cancel_left,
          List.getElem?_cons_succ]
      rw [List.getElem?_eq_getElem hj] at hget
      exact List.mem_append_right _ (List.mem_of_getElem? hget.symm)
    rw [hsplit, ← hplaced] at hk
    obtain ⟨t₁, hremove, -, -, hsound', -⟩ :=
      hsound.remove_found hk hzfound (by simpa using hfirst)
    rw [hremove] at hfold
    cases hfold
    -- so its own entry stays
    have hsame : contents t₁ = some entries' := hcontents'
    rw [hsound'.contents] at hsame
    cases hsame
    have hmem : g[j].2 ∈ calls.filterMap Call.outcome := by
      rw [← hleft.mem_iff, ← List.map_flatten]
      refine List.mem_map_of_mem (mem_flatten_of_getElem? (getElem?_set_of_some hk _) hkept)
    obtain ⟨c, hc, houtcome⟩ := List.mem_filterMap.mp hmem
    have hkey : c.key = g[j].2.1 := by
      obtain ⟨v, -, hpair⟩ := Option.map_eq_some_iff.mp houtcome
      rw [← hpair]
    rw [Call.outcome, hkeys c hc, if_pos hkey] at houtcome
    cases houtcome
  · have hkey : c.key = g[j].2.1 := by simpa using hp
    rw [hkeys c hc, if_pos hkey, hkey]
    show (chained R kind).changes g[j].2.1 t [.remhash] = _
    simp [Class.changes, Class.change, chained]
  · have hkey : c.key ≠ g[j].2.1 := by simpa using hp
    rw [hkeys c hc, if_neg hkey]
    rfl

end Wrong

/-! ## Runs -/

omit [DecidableEq κ] in
theorem not_visitsOnce_of_unbacked {C : Class T κ ν} {t : T} (h : Unbacked (C.table t)) :
    ¬ VisitsOnce C t := by
  intro hvisits
  obtain ⟨-, t', s', calls, -, -, hrun, -⟩ := hvisits Unit (fun _ s _ _ => (s, [])) ()
  obtain ⟨n, hn⟩ : ∃ n, (C.table t).capacity = n + 1 := ⟨_, (Nat.succ_pred h.pos.ne').symm⟩
  simp [Class.maphash, hn, Class.visitBuckets, h.buckets] at hrun

theorem found_self (hself : ∀ key, R.eql key key = true) (kind : Kind) (key : κ) :
    R.found kind key key = true := by
  cases kind with
  | eql => exact hself key
  | equal => simp [Runtime.found]

theorem run_of_answers {O : Objects} {t t' : Table Value ν} {ops : List (Op Value ν)}
    {values : List (Option ν)} (h : answers O t ops = some (t', values)) :
    run (runtime O) .eql t ops = some t' := by
  induction ops generalizing t values with
  | nil =>
    cases h
    rfl
  | cons op ops ih =>
    obtain ⟨⟨t₁, v⟩, hanswer, h⟩ := Option.bind_eq_some_iff.mp h
    obtain ⟨⟨t₂, values'⟩, hrest, h⟩ := Option.bind_eq_some_iff.mp h
    cases h
    have hstep : step (runtime O) .eql t op = some t₁ := by
      cases op with
      | puthash key value =>
        obtain ⟨t₃, hput, hpair⟩ := Option.map_eq_some_iff.mp hanswer
        cases hpair
        exact hput
      | remhash key =>
        show (remove (runtime O) .eql t key).map Prod.fst = _
        rw [show remove (runtime O) .eql t key = some (t₁, v) from hanswer]
        rfl
      | clrhash =>
        cases hanswer
        rfl
      | gethash key =>
        obtain ⟨value, hget, hpair⟩ := Option.map_eq_some_iff.mp hanswer
        cases hpair
        show (HashTable.get (runtime O) .eql t key).map _ = _
        rw [hget]
        rfl
    show (step (runtime O) .eql t op).bind _ = _
    rw [hstep]
    exact ih hrest

/-- **Mapping over a table** visits every entry once, whatever the function does to the entry it is
called with, exactly if the vector of the buckets has been allocated in full and every key finds
its own entry; the keys of an `EQ` table do. -/
theorem maphash_iff (R : Runtime κ) (hself : ∀ key, R.eql key key = true) (size : ℕ) :
    (∀ kind (ops : List (Op κ ν)) t,
      ((init size).bind fun t => run R kind t ops) = some t →
      (VisitsOnce (chained R kind) t ↔ size ≤ 2 ^ 60 ∧ FindsOwn R kind t)) ∧
    ∀ (O : Objects) (ops : List (Op Value ν)) (t : EqTable ν) values,
      ((EqTable.new size).bind fun t => t.run O ops) = some (t, values) →
      (VisitsOnce (eqClass O) t ↔ size ≤ 2 ^ 60) := by
  refine ⟨fun kind ops t hrun => ?_, fun O ops t values hrun => ?_⟩
  · have hsound := sound_of_run hrun
    split_ifs at hsound with hsize
    · obtain ⟨G, hsound⟩ := hsound
      refine ⟨fun h => ⟨hsize, findsOwn_of_visitsOnce (found_self hself kind) hsound h⟩,
        fun h => ?_⟩
      exact visitsOnce_of_apart follows_chained (found_self hself kind) trivial hsound
        (hsound.findsOwn_iff.mp h.2)
    · exact iff_of_false (not_visitsOnce_of_unbacked hsound) fun h => hsize h.1
  · obtain ⟨t₀, hnew, hrun⟩ := Option.bind_eq_some_iff.mp hrun
    obtain ⟨heq, hcoherent⟩ := EqTable.run_spec (EqTable.coherent_new hnew) ops
    have hanswers : answers O t₀.toTable ops = some (t.toTable, values) := by
      rw [← heq, hrun]
      rfl
    have hinit : init size = some t₀.toTable := by
      obtain ⟨t₁, hinit, hpair⟩ := Option.bind_eq_some_iff.mp hnew
      cases hpair
      exact hinit
    have hbase : ((init size).bind fun t => run (runtime O) .eql t ops) = some t.toTable := by
      rw [hinit]
      exact run_of_answers hanswers
    have hself : ∀ key, (runtime O).found .eql key key = true := by simp [Runtime.found, runtime]
    have hsound := sound_of_run hbase
    split_ifs at hsound with hsize
    · obtain ⟨G, hsound⟩ := hsound
      refine iff_of_true ?_ hsize
      refine visitsOnce_of_apart (follows_eqClass O) hself (hcoherent t values hrun) hsound
        (hsound.findsOwn_iff.mp (hsound.findsOwn_of_symm fun a b => ?_))
      exact Bool.beq_comm
    · exact iff_of_false (not_visitsOnce_of_unbacked hsound) hsize

/-- A table of the default size with two keys. -/
theorem maphash_numbers :
    (∀ key, numberRuntime.eql key key = true) ∧
    ∃ t : Table ℕ ℕ, ((init 16).bind fun t =>
        run numberRuntime .equal t [.puthash 1 2, .puthash 17 3]) = some t ∧
      VisitsOnce (chained numberRuntime .equal) t := by
  have hself : ∀ key, numberRuntime.eql key key = true := by simp [numberRuntime]
  obtain ⟨t, hrun⟩ : ∃ t : Table ℕ ℕ, ((init 16).bind fun t =>
      run numberRuntime .equal t [.puthash 1 2, .puthash 17 3]) = some t :=
    Option.isSome_iff_exists.mp (by decide)
  obtain ⟨G, hsound⟩ : ∃ G, Sound numberRuntime .equal t G := sound_of_run hrun
  refine ⟨hself, t, hrun, ((maphash_iff numberRuntime hself 16).1 _ _ t hrun).mpr
    ⟨by norm_num, hsound.findsOwn_of_symm fun a b => ?_⟩⟩
  simp only [Runtime.found, numberRuntime, Bool.or_self]
  exact Bool.beq_comm

/-- `equal` on the objects. -/
def objectRuntime : Runtime Equality.Obj where
  hash x := (Equality.hash x).toNat
  eql x y := x == y
  equal := Equality.equal

/-- The key `#*1`, and one of two elements with a fill pointer: each is found by `#*1`. -/
def wrongFinds : List (Op Equality.Obj ℕ) :=
  [.puthash (.bitVector 1 (.simple [true])) 1, .puthash (.bitVector 2 Equality.halfBits) 2]

/-- `remhash` of `#*1` removes the other key. -/
theorem not_maphash_wrongFinds :
    ¬ ∀ (size : ℕ) (ops : List (Op Equality.Obj ℕ)) t,
      ((init size).bind fun t => run objectRuntime .equal t ops) = some t →
      VisitsOnce (chained objectRuntime .equal) t := by
  intro h
  obtain ⟨t, hrun⟩ : ∃ t, ((init 16).bind fun t => run objectRuntime .equal t wrongFinds) =
      some t := Option.isSome_iff_exists.mp (by decide)
  have hself : ∀ key, objectRuntime.eql key key = true := fun key => beq_self_eq_true key
  obtain ⟨G, hsound⟩ : ∃ G, Sound objectRuntime .equal t G := sound_of_run hrun
  have hown := findsOwn_of_visitsOnce (found_self hself .equal) hsound (h 16 wrongFinds t hrun)
  obtain ⟨others, hcontents⟩ : ∃ others, contents t = some
      ([(.bitVector 2 Equality.halfBits, 2), (.bitVector 1 (.simple [true]), 1)] :: others) := by
    have hrest : (((init 16).bind fun t => run objectRuntime .equal t wrongFinds).bind contents) =
        some ([(.bitVector 2 Equality.halfBits, 2), (.bitVector 1 (.simple [true]), 1)] ::
          List.replicate 15 []) := by decide
    rw [hrun] at hrest
    exact ⟨_, hrest⟩
  have hbucket := hown _ hcontents _ List.mem_cons_self
  exact absurd (List.rel_of_pairwise_cons hbucket List.mem_cons_self) (by decide)

end Xcl.HashTable
