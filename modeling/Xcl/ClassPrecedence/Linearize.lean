import Xcl.ClassPrecedence.Model

/-!
# The computed class precedence lists

* **`stdComputeClassPrecedenceList_spec`**: the class precedence list or the inconsistency error,
  for every order in which the set operations list their elements.
-/

namespace Xcl.ClassPrecedence

open Relation Ordered

variable {α : Type} {sup : α → List α} {c d x y : α} {l : List α}

/-! ## Local precedence orders -/

theorem isChain_of_zip {R : α → α → Prop} (d : α) (l : List α)
    (h : ∀ pair ∈ (d :: l.dropLast).zip l, R pair.1 pair.2) : List.IsChain R (d :: l) := by
  induction l generalizing d with
  | nil => exact List.isChain_singleton d
  | cons e l ih =>
    rw [List.isChain_cons_cons]
    constructor
    · exact h (d, e) (by simp)
    · cases l with
      | nil => exact List.isChain_singleton e
      | cons f l =>
        apply ih
        intro pair hpair
        exact h pair (by simpa using Or.inr hpair)

theorem superclass_of_mem (hd : Superclass sup c d) (hx : x ∈ sup d) : Superclass sup c x :=
  hd.tail hx

theorem superclass_of_precedes (h : Precedes sup c x y) :
    Superclass sup c x ∧ Superclass sup c y := by
  obtain ⟨d, hd, hpair⟩ := h
  obtain ⟨hx, hy⟩ := List.of_mem_zip hpair
  constructor
  · rcases List.mem_cons.1 hx with rfl | hx
    · exact hd
    · exact superclass_of_mem hd (List.mem_of_mem_dropLast hx)
  · exact superclass_of_mem hd hy

theorem pairwise_precedes (hd : Superclass sup c d) :
    (d :: sup d).Pairwise (TransGen (Precedes sup c)) := by
  apply transGen_of_isChain
  apply isChain_of_zip
  intro pair hpair
  exact ⟨d, hd, hpair⟩

theorem transGen_of_direct (hd : Superclass sup c d) (hx : x ∈ sup d) :
    TransGen (Precedes sup c) d x :=
  List.rel_of_pairwise_cons (pairwise_precedes hd) hx

/-! ## Minimal classes -/

theorem Minimal.mem_of_transGen (h : Minimal sup c l x) (hl : Respects (Precedes sup c) l)
    (hyx : TransGen (Precedes sup c) y x) : y ∈ l := by
  have hconcat : Respects (Precedes sup c) (l ++ [x]) := respects_concat.2 ⟨hl, h.2.2⟩
  exact hconcat.mem_before hyx

theorem Minimal.exists_subclass (h : Minimal sup c l x) (hl : Respects (Precedes sup c) l)
    (hx : x ≠ c) : ∃ d ∈ l, x ∈ sup d := by
  rcases ReflTransGen.cases_tail h.1 with heq | ⟨d, hd, hxd⟩
  · exact absurd heq hx
  · exact ⟨d, h.mem_of_transGen hl (transGen_of_direct hd hxd), hxd⟩

theorem Minimal.eq_of_nil (h : Minimal sup c [] x) : x = c := by
  by_contra hx
  obtain ⟨d, hd, -⟩ := h.exists_subclass respects_nil hx
  simp at hd

theorem Minimal.eq_of_mem (hx : Minimal sup c l x) (hy : Minimal sup c l y)
    (hl : Respects (Precedes sup c) l) (hd : Superclass sup c d) (hxd : x ∈ sup d)
    (hyd : y ∈ sup d) : x = y := by
  by_contra hne
  have hpairwise := (pairwise_precedes hd).of_cons
  obtain ⟨before, after, hsplit⟩ := List.append_of_mem hxd
  rw [hsplit] at hpairwise hyd
  obtain ⟨-, hafter, hbefore⟩ := List.pairwise_append.1 hpairwise
  rcases List.mem_append.1 hyd with hmem | hmem
  · exact hy.2.1 (hx.mem_of_transGen hl (hbefore y hmem x (by simp)))
  · rcases List.mem_cons.1 hmem with heq | hmem
    · exact hne heq.symm
    · exact hx.2.1 (hy.mem_of_transGen hl (List.rel_of_pairwise_cons hafter hmem))

theorem comesNext_unique (hl : Respects (Precedes sup c) l)
    (hsup : ∀ d ∈ l, Superclass sup c d) (hx : ComesNext sup c l x) (hy : ComesNext sup c l y) :
    x = y := by
  obtain ⟨hxmin, hx⟩ := hx
  obtain ⟨hymin, hy⟩ := hy
  rcases hx with rfl | ⟨before, d, after, hsplit, hxd, hafter⟩
  · rw [hxmin.eq_of_nil, hymin.eq_of_nil]
  rcases hy with rfl | ⟨before', d', after', hsplit', hyd, hafter'⟩
  · simp at hsplit
  rw [hsplit] at hsplit'
  rcases List.append_eq_append_iff.1 hsplit' with ⟨middle, hb, ha⟩ | ⟨middle, hb, ha⟩
  · cases middle with
    | nil =>
      obtain ⟨rfl, -⟩ := List.cons.inj (ha : d :: after = d' :: after')
      exact hxmin.eq_of_mem hymin hl (hsup d (by simp [hsplit])) hxd hyd
    | cons e middle =>
      obtain ⟨-, ha⟩ := List.cons.inj (ha : d :: after = e :: (middle ++ d' :: after'))
      exact absurd hymin (hafter d' (by simp [ha]) y hyd)
  · cases middle with
    | nil =>
      obtain ⟨rfl, -⟩ := List.cons.inj (ha : d' :: after' = d :: after)
      exact hxmin.eq_of_mem hymin hl (hsup d' (by simp [hsplit])) hxd hyd
    | cons e middle =>
      obtain ⟨-, ha⟩ := List.cons.inj (ha : d' :: after' = e :: (middle ++ d :: after))
      exact absurd hxmin (hafter' d (by simp [ha]) x hxd)

/-! ## Class precedence lists -/

theorem IsPrecedenceList.eq_of_append {before rest rest' : List α}
    (h : IsPrecedenceList sup c (before ++ rest))
    (h' : IsPrecedenceList sup c (before ++ rest')) : rest = rest' := by
  induction rest generalizing before rest' with
  | nil =>
    cases rest' with
    | nil => rfl
    | cons y rest' =>
      have hy : y ∈ before ++ [] := (h.mem y).2 ((h'.mem y).1 (by simp))
      rw [List.append_nil] at hy
      exact absurd rfl ((List.nodup_append.1 h'.nodup).2.2 y hy y (by simp))
  | cons x rest ih =>
    cases rest' with
    | nil =>
      have hx : x ∈ before ++ [] := (h'.mem x).2 ((h.mem x).1 (by simp))
      rw [List.append_nil] at hx
      exact absurd rfl ((List.nodup_append.1 h.nodup).2.2 x hx x (by simp))
    | cons y rest' =>
      have heq : x = y := by
        apply comesNext_unique h.respects.of_append _ (h.next before x rest rfl)
          (h'.next before y rest' rfl)
        intro d hd
        exact (h.mem d).1 (by simp [hd])
      subst heq
      have hx : IsPrecedenceList sup c ((before ++ [x]) ++ rest) := by simpa using h
      have hx' : IsPrecedenceList sup c ((before ++ [x]) ++ rest') := by simpa using h'
      rw [ih hx hx']

theorem IsPrecedenceList.unique {l' : List α} (h : IsPrecedenceList sup c l)
    (h' : IsPrecedenceList sup c l') : l = l' := by
  have hnil : IsPrecedenceList sup c ([] ++ l) := h
  exact hnil.eq_of_append h'

theorem IsPrecedenceList.not_cyclic (h : IsPrecedenceList sup c l) : ¬Cyclic sup c := by
  rintro ⟨x, hx⟩
  obtain ⟨y, hy, -⟩ := TransGen.head'_iff.1 hx
  have hmem : x ∈ l := (h.mem x).2 (superclass_of_precedes hy).1
  exact h.respects.not_cycle h.nodup hmem hx

/-! ## Collecting the superclasses -/

variable [DecidableEq α]

structure Collects (sup : α → List α) (c : α) (seen superclasses : List α) : Prop where
  mem : c ∈ superclasses
  sound : ∀ x ∈ superclasses, Superclass sup c x
  seen : ∀ x ∈ seen, x ∈ superclasses ∧ ∀ y ∈ sup x, y ∈ superclasses
  count : (∀ d, Superclass sup c d → c ∉ sup d) → superclasses.count c ≤ 1

theorem Collects.step {seen superclasses : List α} (h : Collects sup c seen superclasses)
    (ops : SetOps α) (hx : x ∈ superclasses) :
    Collects sup c (x :: seen) (ops.union (sup x) superclasses) := by
  have hunion := ops.mem_union (sup x) superclasses
  constructor
  · exact (hunion c).2 (Or.inr h.mem)
  · intro y hy
    rcases (hunion y).1 hy with hy | hy
    · exact superclass_of_mem (h.sound x hx) hy
    · exact h.sound y hy
  · intro y hy
    rcases List.mem_cons.1 hy with rfl | hy
    · exact ⟨(hunion y).2 (Or.inr hx), fun z hz => (hunion z).2 (Or.inl hz)⟩
    · obtain ⟨hmem, hsup⟩ := h.seen y hy
      exact ⟨(hunion y).2 (Or.inr hmem), fun z hz => (hunion z).2 (Or.inr (hsup z hz))⟩
  · intro hnot
    have hcount := ops.count_union (sup x) superclasses c
    have hzero : (sup x).count c = 0 := List.count_eq_zero.2 (hnot x (h.sound x hx))
    have hle := h.count hnot
    omega

theorem Collects.complete {seen superclasses : List α} (h : Collects sup c seen superclasses)
    (hseen : ∀ x ∈ superclasses, x ∈ seen) : ∀ x, x ∈ superclasses ↔ Superclass sup c x := by
  intro x
  constructor
  · exact h.sound x
  · intro hx
    induction hx with
    | refl => exact h.mem
    | tail _ hd ih => exact (h.seen _ (hseen _ ih)).2 _ hd

/-- The classes of the finite hierarchy that are not in the list. -/
def unseen (classes : Finset α) (seen : List α) : Finset α := classes.filter (· ∉ seen)

theorem card_unseen_cons {classes : Finset α} {seen : List α} (hx : x ∈ classes)
    (hnot : x ∉ seen) : (unseen classes (x :: seen)).card < (unseen classes seen).card := by
  apply Finset.card_lt_card
  constructor
  · intro y hy
    simp only [unseen, Finset.mem_filter, List.mem_cons, not_or] at hy ⊢
    exact ⟨hy.1, hy.2.2⟩
  · intro hsub
    have hmem := hsub (Finset.mem_filter.2 ⟨hx, by simpa using hnot⟩)
    simp [unseen] at hmem

omit [DecidableEq α] in
theorem Hierarchy.superclass_mem {H : Hierarchy α} (hc : c ∈ H.classes)
    (hd : Superclass H.directSuperclasses c d) : d ∈ H.classes := by
  induction hd with
  | refl => exact hc
  | tail _ hd ih => exact H.closed _ ih _ hd

theorem allSuperclassesLoop_spec {H : Hierarchy α} (ops : SetOps α) (hc : c ∈ H.classes)
    {fuel : ℕ} {seen superclasses : List α}
    (h : Collects H.directSuperclasses c seen superclasses)
    (hfuel : (unseen H.classes seen).card < fuel) :
    ∃ l, allSuperclassesLoop ops H.directSuperclasses fuel seen superclasses = some l ∧
      (∀ x, x ∈ l ↔ Superclass H.directSuperclasses c x) ∧
      ((∀ d, Superclass H.directSuperclasses c d → c ∉ H.directSuperclasses d) →
        l.count c ≤ 1) := by
  induction fuel generalizing seen superclasses with
  | zero => omega
  | succ fuel ih =>
    have hdiff := ops.mem_setDifference superclasses seen
    unfold allSuperclassesLoop
    cases hcase : ops.setDifference superclasses seen with
    | nil =>
      rw [hcase] at hdiff
      refine ⟨superclasses, rfl, h.complete ?_, h.count⟩
      intro x hx
      by_contra hnot
      exact absurd ((hdiff x).2 ⟨hx, hnot⟩) (by simp)
    | cons x rest =>
      obtain ⟨hx, hnot⟩ := (hdiff x).1 (by simp [hcase])
      have hmem := H.superclass_mem hc (h.sound x hx)
      have hcard := card_unseen_cons hmem hnot
      exact ih (h.step ops hx) (by omega)

theorem collectSuperclasses_spec {H : Hierarchy α} (ops : SetOps α) (hc : c ∈ H.classes)
    {fuel : ℕ} (hfuel : H.classes.card < fuel) :
    ∃ l, collectSuperclasses ops H.directSuperclasses fuel c = some l ∧
      (∀ x, x ∈ l ↔ Superclass H.directSuperclasses c x) ∧
      ((∀ d, Superclass H.directSuperclasses c d → c ∉ H.directSuperclasses d) →
        l.count c ≤ 1) := by
  apply allSuperclassesLoop_spec ops hc
  · constructor
    · simp
    · intro x hx
      rw [List.mem_singleton] at hx
      subst hx
      exact ReflTransGen.refl
    · intro x hx
      simp at hx
    · intro _
      simp
  · have hcard : (unseen H.classes []).card = H.classes.card := by simp [unseen]
    omega

/-! ## Sorting -/

/-- What the topological sort keeps. -/
structure Loop (sup : α → List α) (c : α) (constraints : List (α × α)) (elements result : List α) :
    Prop where
  mem_constraints : ∀ x y, (x, y) ∈ constraints ↔ Precedes sup c x y ∧ x ∉ result ∧ y ∉ result
  mem_elements : ∀ x, x ∈ elements ↔ Superclass sup c x ∧ x ∉ result
  respects : Respects (Precedes sup c) result
  next : ∀ before x after, result = before ++ x :: after → ComesNext sup c before x
  count : result = [] → Minimal sup c [] c → elements.count c ≤ 1

variable {constraints : List (α × α)} {elements result : List α}

theorem Loop.mem_minimal (h : Loop sup c constraints elements result) :
    x ∈ (elements.filter fun c => c ∉ constraints.map Prod.snd) ↔ Minimal sup c result x := by
  unfold Minimal
  rw [List.mem_filter, h.mem_elements, and_assoc]
  refine and_congr_right fun _ => and_congr_right fun hx => ?_
  rw [decide_eq_true_iff, List.mem_map]
  constructor
  · intro hnot y hy
    by_contra hmem
    exact hnot ⟨(y, x), (h.mem_constraints y x).2 ⟨hy, hmem, hx⟩, rfl⟩
  · rintro hall ⟨⟨y, z⟩, hmem, rfl⟩
    obtain ⟨hprecedes, hy, -⟩ := (h.mem_constraints y z).1 hmem
    exact hy (hall y hprecedes)

theorem Loop.superclass (h : Loop sup c constraints elements result) (hx : x ∈ result) :
    Superclass sup c x := by
  obtain ⟨before, after, hsplit⟩ := List.append_of_mem hx
  exact (h.next before x after hsplit).1.1

theorem Loop.mem_of_ne_nil (h : Loop sup c constraints elements result) (hne : result ≠ []) :
    ∃ rest, result = c :: rest := by
  cases hresult : result with
  | nil => exact absurd hresult hne
  | cons x rest =>
    have hnext := (h.next [] x rest hresult).1.eq_of_nil
    exact ⟨rest, by rw [hnext]⟩

theorem Loop.nodup (h : Loop sup c constraints elements result) : result.Nodup := by
  have hnext := h.next
  clear h
  induction result using List.reverseRecOn with
  | nil => exact List.nodup_nil
  | append_singleton l x ih =>
    have hx := (hnext l x [] rfl).1.2.1
    rw [List.nodup_append]
    refine ⟨ih ?_, List.nodup_singleton x, ?_⟩
    · intro before y after hsplit
      exact hnext before y (after ++ [x]) (by simp [hsplit])
    · intro y hy z hz heq
      rw [List.mem_singleton] at hz
      rw [heq, hz] at hy
      exact hx hy

theorem Loop.step (h : Loop sup c constraints elements result) (hx : ComesNext sup c result x) :
    Loop sup c (constraints.filter fun pair => pair.1 ≠ x ∧ pair.2 ≠ x)
      (elements.filter (· ≠ x)) (result ++ [x]) := by
  constructor
  · intro y z
    simp only [List.mem_filter, h.mem_constraints, decide_eq_true_iff, List.mem_append,
      List.mem_singleton]
    tauto
  · intro y
    simp only [List.mem_filter, h.mem_elements, decide_eq_true_iff, List.mem_append,
      List.mem_singleton]
    tauto
  · exact respects_concat.2 ⟨h.respects, hx.1.2.2⟩
  · intro before y after hsplit
    rcases List.eq_nil_or_concat after with rfl | ⟨after', z, rfl⟩
    · obtain ⟨rfl, heq⟩ := List.append_inj' (hsplit : result ++ [x] = before ++ [y]) rfl
      obtain rfl : x = y := by simpa using heq
      exact hx
    · have hsplit' : result ++ [x] = (before ++ y :: after') ++ [z] := by simp [hsplit]
      obtain ⟨hleft, -⟩ := List.append_inj' hsplit' rfl
      exact h.next before y after' hleft
  · intro hnil
    simp at hnil

omit [DecidableEq α] in
theorem exists_last {P : α → Prop} (h : ∃ d ∈ l, P d) :
    ∃ before d after, l = before ++ d :: after ∧ P d ∧ ∀ e ∈ after, ¬P e := by
  induction l with
  | nil => simp at h
  | cons x l ih =>
    by_cases hl : ∃ d ∈ l, P d
    · obtain ⟨before, d, after, hsplit, hd, hafter⟩ := ih hl
      exact ⟨x :: before, d, after, by simp [hsplit], hd, hafter⟩
    · have hx : P x := by
        obtain ⟨d, hd, hPd⟩ := h
        rcases List.mem_cons.1 hd with rfl | hd
        · exact hPd
        · exact absurd ⟨d, hd, hPd⟩ hl
      exact ⟨[], x, l, rfl, hx, fun e he hPe => hl ⟨e, he, hPe⟩⟩

theorem Loop.exists_subclass (h : Loop sup c constraints elements result) (hne : result ≠ [])
    (hx : Minimal sup c result x) : ∃ d ∈ result, ∃ y ∈ sup d, Minimal sup c result y := by
  have hxc : x ≠ c := by
    obtain ⟨rest, hrest⟩ := h.mem_of_ne_nil hne
    rintro rfl
    exact hx.2.1 (by simp [hrest])
  obtain ⟨d, hd, hxd⟩ := hx.exists_subclass h.respects hxc
  exact ⟨d, hd, x, hxd, hx⟩

theorem Loop.comesNext_of_singleton (h : Loop sup c constraints elements result)
    (hx : ∀ y, Minimal sup c result y ↔ y = x) : ComesNext sup c result x := by
  have hmin := (hx x).2 rfl
  refine ⟨hmin, ?_⟩
  by_cases hne : result = []
  · exact Or.inl hne
  · obtain ⟨before, d, after, hsplit, ⟨y, hyd, hymin⟩, hafter⟩ :=
      exists_last (h.exists_subclass hne hmin)
    obtain rfl := (hx y).1 hymin
    refine Or.inr ⟨before, d, after, hsplit, hyd, ?_⟩
    intro e he z hz hzmin
    exact hafter e he ⟨z, hz, hzmin⟩

theorem comesNext_of_tieBreaker (ops : SetOps α) {minimal : List α}
    (hminimal : ∀ y, y ∈ minimal ↔ Minimal sup c result y)
    (hchoice : stdTieBreakerRule ops sup minimal result = some x) : ComesNext sup c result x := by
  unfold stdTieBreakerRule at hchoice
  obtain ⟨after, d, before, hsplit, hd, hafter⟩ := List.findSome?_eq_some_iff.1 hchoice
  have hxd := (ops.mem_intersection minimal (sup d) x).1 (List.mem_of_mem_head? hd)
  have hresult : result = before.reverse ++ d :: after.reverse := by
    rw [← List.reverse_reverse result, hsplit]
    simp
  refine ⟨(hminimal x).1 hxd.1, Or.inr ⟨before.reverse, d, after.reverse, hresult, hxd.2, ?_⟩⟩
  intro e he y hy hymin
  have hnone := hafter e (List.mem_reverse.1 he)
  rw [List.head?_eq_none_iff] at hnone
  have hmem := (ops.mem_intersection minimal (sup e) y).2 ⟨(hminimal y).2 hymin, hy⟩
  simp [hnone] at hmem

theorem Loop.tieBreaker_ne_none (h : Loop sup c constraints elements result) (ops : SetOps α)
    {minimal : List α} (hminimal : ∀ y, y ∈ minimal ↔ Minimal sup c result y)
    (hne : result ≠ []) (hx : x ∈ minimal) :
    stdTieBreakerRule ops sup minimal result ≠ none := by
  intro hnone
  unfold stdTieBreakerRule at hnone
  rw [List.findSome?_eq_none_iff] at hnone
  obtain ⟨d, hd, y, hyd, hymin⟩ := h.exists_subclass hne ((hminimal x).1 hx)
  have hempty := hnone d (List.mem_reverse.2 hd)
  rw [List.head?_eq_none_iff] at hempty
  have hmem := (ops.mem_intersection minimal (sup d) y).2 ⟨(hminimal y).2 hymin, hyd⟩
  simp [hempty] at hmem

theorem Loop.ne_nil_of_two (h : Loop sup c constraints elements result) {z : α} {rest : List α}
    (hfilter : (elements.filter fun c => c ∉ constraints.map Prod.snd) = x :: z :: rest) :
    result ≠ [] := by
  intro hnil
  have hmem : ∀ w ∈ x :: z :: rest, w = c := by
    intro w hw
    rw [← hfilter, h.mem_minimal, hnil] at hw
    exact hw.eq_of_nil
  have hc : Minimal sup c [] c := by
    have hx : x ∈ x :: z :: rest := by simp
    have hxc := hmem x hx
    rw [← hfilter, h.mem_minimal, hnil, hxc] at hx
    exact hx
  have hcount := h.count hnil hc
  have hle : (x :: z :: rest).count c ≤ elements.count c := by
    rw [← hfilter]
    exact List.filter_sublist.count_le c
  have htwo : (x :: z :: rest).count c = rest.count c + 2 := by
    rw [hmem x (by simp), hmem z (by simp)]
    simp
  omega

theorem Loop.choice (h : Loop sup c constraints elements result) (ops : SetOps α) {rest : List α}
    (hfilter : (elements.filter fun c => c ∉ constraints.map Prod.snd) = x :: rest) :
    ∃ choice, (if rest = [] then some x else stdTieBreakerRule ops sup (x :: rest) result) =
      some choice ∧ ComesNext sup c result choice := by
  have hminimal : ∀ y, y ∈ x :: rest ↔ Minimal sup c result y := by
    intro y
    rw [← hfilter]
    exact h.mem_minimal
  cases rest with
  | nil =>
    refine ⟨x, rfl, h.comesNext_of_singleton fun y => ?_⟩
    rw [← hminimal y, List.mem_singleton]
  | cons z rest =>
    have hne := h.ne_nil_of_two hfilter
    have hx : x ∈ x :: z :: rest := by simp
    cases hchoice : stdTieBreakerRule ops sup (x :: z :: rest) result with
    | none => exact absurd hchoice (h.tieBreaker_ne_none ops hminimal hne hx)
    | some choice => exact ⟨choice, by simp, comesNext_of_tieBreaker ops hminimal hchoice⟩

theorem Loop.isPrecedenceList (h : Loop sup c constraints elements result) (hnil : elements = []) :
    IsPrecedenceList sup c result := by
  have hmem : ∀ d, d ∈ result ↔ Superclass sup c d := by
    intro d
    constructor
    · exact h.superclass
    · intro hd
      by_contra hnot
      have hd' := (h.mem_elements d).2 ⟨hd, hnot⟩
      simp [hnil] at hd'
  have hc : c ∈ result := (hmem c).2 ReflTransGen.refl
  refine ⟨?_, h.nodup, hmem, h.respects, h.next⟩
  obtain ⟨rest, hrest⟩ := h.mem_of_ne_nil (List.ne_nil_of_mem hc)
  rw [hrest]
  rfl

theorem Loop.cyclic {classes : Finset α} (h : Loop sup c constraints elements result)
    (hclasses : ∀ d, Superclass sup c d → d ∈ classes) (hne : elements ≠ [])
    (hfilter : (elements.filter fun c => c ∉ constraints.map Prod.snd) = []) : Cyclic sup c := by
  by_contra hacyclic
  have hfinite : {x | x ∈ elements}.Finite :=
    classes.finite_toSet.subset fun x hx => hclasses x ((h.mem_elements x).1 hx).1
  obtain ⟨x, hx, hmin⟩ := exists_minimal hfinite (List.exists_mem_of_ne_nil elements hne)
    fun x hx => hacyclic ⟨x, hx⟩
  have hminimal : Minimal sup c result x := by
    obtain ⟨hsuper, hnot⟩ := (h.mem_elements x).1 hx
    refine ⟨hsuper, hnot, fun y hy => ?_⟩
    by_contra hmem
    exact hmin y ((h.mem_elements y).2 ⟨(superclass_of_precedes hy).1, hmem⟩) hy
  rw [← h.mem_minimal, hfilter] at hminimal
  simp at hminimal

/-- **The topological sort** returns the class precedence list, or the constraints have a cycle. -/
theorem topologicalSort_spec {classes : Finset α} (ops : SetOps α)
    (hclasses : ∀ d, Superclass sup c d → d ∈ classes) {fuel : ℕ}
    (h : Loop sup c constraints elements result) (hfuel : (unseen classes result).card < fuel) :
    (Cyclic sup c ∧ topologicalSort (stdTieBreakerRule ops sup) fuel constraints elements result =
        some (.error .inconsistent)) ∨
      ∃ l, topologicalSort (stdTieBreakerRule ops sup) fuel constraints elements result =
        some (.ok l) ∧ IsPrecedenceList sup c l := by
  induction fuel generalizing constraints elements result with
  | zero => omega
  | succ fuel ih =>
    unfold topologicalSort
    cases hfilter : elements.filter fun c => c ∉ constraints.map Prod.snd with
    | nil =>
      by_cases hnil : elements = []
      · exact Or.inr ⟨result, by simp [hnil], h.isPrecedenceList hnil⟩
      · exact Or.inl ⟨h.cyclic hclasses hnil hfilter, by simp [hnil]⟩
    | cons x rest =>
      obtain ⟨choice, hchoice, hnext⟩ := h.choice ops hfilter
      simp only [hchoice]
      apply ih (h.step hnext)
      have hcard := card_unseen_cons (hclasses choice hnext.1.1) hnext.1.2.1
      have heq : unseen classes (result ++ [choice]) = unseen classes (choice :: result) := by
        ext y
        simp [unseen, or_comm]
      rw [heq]
      omega

theorem loop_start {classes : List α} (hclasses : ∀ x, x ∈ classes ↔ Superclass sup c x)
    (hcount : (∀ d, Superclass sup c d → c ∉ sup d) → classes.count c ≤ 1) :
    Loop sup c (classes.flatMap (localPrecedenceOrdering sup)) classes [] := by
  constructor
  · intro x y
    simp [Precedes, hclasses]
  · intro x
    simp [hclasses]
  · exact respects_nil
  · intro before x after hsplit
    simp at hsplit
  · intro _ hminimal
    apply hcount
    intro d hd hcd
    have hmem := hminimal.mem_of_transGen respects_nil (transGen_of_direct hd hcd)
    simp at hmem

/-! ## The result -/

/-- **Class precedence lists are right and canonical.** -/
theorem stdComputeClassPrecedenceList_spec (H : Hierarchy α) (c : α) (hc : c ∈ H.classes) :
    (Cyclic H.directSuperclasses c ∧ ∀ (ops : SetOps α) (fuel : ℕ), H.classes.card < fuel →
      stdComputeClassPrecedenceList ops H.directSuperclasses fuel c =
        some (.error .inconsistent)) ∨
    ¬Cyclic H.directSuperclasses c ∧ ∃ l, IsPrecedenceList H.directSuperclasses c l ∧
      (∀ l', IsPrecedenceList H.directSuperclasses c l' → l' = l) ∧
      ∀ (ops : SetOps α) (fuel : ℕ), H.classes.card < fuel →
        stdComputeClassPrecedenceList ops H.directSuperclasses fuel c = some (.ok l) := by
  have hspec : ∀ (ops : SetOps α) (fuel : ℕ), H.classes.card < fuel →
      (Cyclic H.directSuperclasses c ∧
        stdComputeClassPrecedenceList ops H.directSuperclasses fuel c =
          some (.error .inconsistent)) ∨
      ∃ l, stdComputeClassPrecedenceList ops H.directSuperclasses fuel c = some (.ok l) ∧
        IsPrecedenceList H.directSuperclasses c l := by
    intro ops fuel hfuel
    obtain ⟨classes, hcollect, hmem, hcount⟩ := collectSuperclasses_spec ops hc hfuel
    have hunseen : (unseen H.classes []).card < fuel := by simpa [unseen] using hfuel
    unfold stdComputeClassPrecedenceList
    rw [hcollect]
    exact topologicalSort_spec ops (fun d hd => H.superclass_mem hc hd)
      (loop_start hmem hcount) hunseen
  by_cases hcyclic : Cyclic H.directSuperclasses c
  · refine Or.inl ⟨hcyclic, fun ops fuel hfuel => ?_⟩
    rcases hspec ops fuel hfuel with ⟨-, herror⟩ | ⟨l, -, hl⟩
    · exact herror
    · exact absurd hcyclic hl.not_cyclic
  · refine Or.inr ⟨hcyclic, ?_⟩
    have hok : ∀ (ops : SetOps α) (fuel : ℕ), H.classes.card < fuel →
        ∃ l, stdComputeClassPrecedenceList ops H.directSuperclasses fuel c = some (.ok l) ∧
          IsPrecedenceList H.directSuperclasses c l := fun ops fuel hfuel =>
      (hspec ops fuel hfuel).resolve_left fun h => hcyclic h.1
    obtain ⟨l, -, hl⟩ := hok .source (H.classes.card + 1) (by omega)
    refine ⟨l, hl, fun l' hl' => hl'.unique hl, fun ops fuel hfuel => ?_⟩
    obtain ⟨l', hrun, hl'⟩ := hok ops fuel hfuel
    rw [hrun, hl'.unique hl]

def diamond : Hierarchy ℕ where
  classes := {0, 1, 2, 3}
  directSuperclasses c := if c = 0 then [2, 1] else if c = 1 ∨ c = 2 then [3] else []
  closed := by decide

theorem isPrecedenceList_diamond :
    0 ∈ diamond.classes ∧ IsPrecedenceList diamond.directSuperclasses 0 [0, 2, 1, 3] := by
  have hrun : stdComputeClassPrecedenceList .source diamond.directSuperclasses 5 0 =
      some (.ok [0, 2, 1, 3]) := by rfl
  have hmem : 0 ∈ diamond.classes := by decide
  refine ⟨hmem, ?_⟩
  rcases stdComputeClassPrecedenceList_spec diamond 0 hmem with ⟨-, herror⟩ | ⟨-, l, hl, -, hok⟩
  · rw [herror .source 5 (by decide)] at hrun
    cases hrun
  · rw [hok .source 5 (by decide)] at hrun
    cases hrun
    exact hl

end Xcl.ClassPrecedence
