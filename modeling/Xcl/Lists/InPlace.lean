import Xcl.Lib.ConsHeap

/-!
# Destructive list operations

* **`listsRight`**: the elements, the conses and what is left alone, in every heap.
-/

namespace Xcl.Conses

variable {α : Type}

/-- A result, or the datum of a type error; nothing where the bound on the rounds is reached. -/
abbrev Run (α β : Type) := Option (Except (Value α) (Heap α × β))

/-! ## Deletion -/

/-- The loop of `list-delete-eq` and `list-delete-eql` from `tail` on; `splice` is the last cons
that has been kept. -/
def listDeleteLoop (test : Value α → Bool) (list : ℕ) :
    ℕ → Heap α → Value α → ℕ → Run α (Value α)
  | 0, _, _, _ => none
  | fuel + 1, h, .cons tail, splice =>
    if test (h.cells tail).car then
      match (h.cells tail).cdr with
      | .cons temp =>
        let h := h.setCar tail (h.cells temp).car
        listDeleteLoop test list fuel (h.setCdr tail (h.cells temp).cdr) (.cons tail) splice
      -- the last cons
      | .nil => if tail = list then some (.ok (h, .nil))
        else some (.ok (h.setCdr splice .nil, .cons list))
      | .other x => some (.error (.other x))
    else listDeleteLoop test list fuel h (h.cells tail).cdr tail
  | _ + 1, h, .nil, _ => some (.ok (h, .cons list))
  | _ + 1, _, .other x, _ => some (.error (.other x))

/-- The body of both functions. -/
def listDelete (test : Value α → Bool) (fuel : ℕ) (h : Heap α) : Value α → Run α (Value α)
  | .cons list => listDeleteLoop test list fuel h (.cons list) list
  | .nil => some (.ok (h, .nil))
  | .other x => some (.error (.other x))

/-- `eql`; the method of the typed objects is given. -/
def eql [DecidableEq α] (objectEql : α → Value α → Bool) (x y : Value α) : Bool :=
  x = y || match x with
    | .other object => objectEql object y
    | _ => false

def listDeleteEq [DecidableEq α] (item : Value α) : ℕ → Heap α → Value α → Run α (Value α) :=
  listDelete fun x => x = item

def listDeleteEql [DecidableEq α] (objectEql : α → Value α → Bool) (item : Value α) :
    ℕ → Heap α → Value α → Run α (Value α) :=
  listDelete fun x => eql objectEql x item

/-! ## Reversal -/

/-- The loop of `nreverse` and of `nreconc`: the conses from `a` on but the last are put in front of
`list`; it ends with the last one. -/
def reverseLoop : ℕ → Heap α → ℕ → Value α → Option (Heap α × ℕ × Value α)
  | 0, _, _, _ => none
  | fuel + 1, h, a, list =>
    match (h.cells a).cdr with
    | .cons b => reverseLoop fuel (h.setCdr a list) b (.cons a)
    | _ => some (h, a, list)

def swapCars (h : Heap α) (a c : ℕ) : Heap α :=
  (h.setCar a (h.cells c).car).setCar c (h.cells a).car

/-- `Cons::nreverse` -/
def nreverseCons (fuel : ℕ) (h : Heap α) (a : ℕ) : Run α (Value α) :=
  match (h.cells a).cdr with
  | .cons b =>
    match (h.cells b).cdr with
    | .cons _ => (reverseLoop fuel h b .nil).map fun (h, c, list) =>
      match (h.cells c).cdr with
      | .nil => .ok (swapCars ((h.setCdr a list).setCdr b (.cons c)) a c, .cons a)
      | datum => .error datum
    | .nil => some (.ok (swapCars h a b, .cons a))
    | datum => some (.error datum)
  | .nil => some (.ok (h, .cons a))
  | datum => some (.error datum)

/-- `CL_nreverse`, of a list. -/
def nreverse (fuel : ℕ) (h : Heap α) : Value α → Run α (Value α)
  | .cons a => nreverseCons fuel h a
  | .nil => some (.ok (h, .nil))
  | .other x => some (.error (.other x))

def nreconc (fuel : ℕ) (h : Heap α) (list tail : Value α) : Run α (Value α) :=
  match list with
  | .cons a =>
    match (h.cells a).cdr with
    | .cons b =>
      match (h.cells b).cdr with
      | .cons _ => (reverseLoop fuel h b .nil).map fun (h, c, list2) =>
        .ok ((swapCars ((h.setCdr a list2).setCdr b (.cons c)) a c).setCdr c tail, .cons a)
      | _ => some (.ok ((swapCars h a b).setCdr b tail, .cons a))
    | .nil => some (.ok (h.setCdr a tail, .cons a))
    | datum => some (.error datum)
  | .nil => some (.ok (h, tail))
  | datum => some (.error datum)

/-! ## Copies -/

/-- Copies of the conses from `top` on are linked behind `splice`; the last one is returned. -/
def copyLoop : ℕ → Heap α → Value α → ℕ → Run α ℕ
  | 0, _, _, _ => none
  | _ + 1, h, .nil, splice => some (.ok (h, splice))
  | fuel + 1, h, .cons top, splice =>
    let (h, temp) := h.makeCons (h.cells top).car .nil
    let h := h.setCdr splice (.cons temp)
    copyLoop fuel h (h.cells top).cdr temp
  | _ + 1, _, .other x, _ => some (.error (.other x))

/-- The second loop of `append`, with the last argument behind all copies. -/
def appendRest (fuel : ℕ) (result : ℕ) : Heap α → List (Value α) → Value α → ℕ → Run α (Value α)
  | h, [], last, splice => some (.ok (h.setCdr splice last, .cons result))
  | h, top :: rest, last, splice =>
    match copyLoop fuel h top splice with
    | some (.ok (h, splice)) => appendRest fuel result h rest last splice
    | some (.error datum) => some (.error datum)
    | none => none

/-- `append` of some lists and a last argument. The first loop looks for a list with elements. -/
def appendLoop (fuel : ℕ) : Heap α → List (Value α) → Value α → Run α (Value α)
  | h, [], last => some (.ok (h, last))
  | h, .nil :: rest, last => appendLoop fuel h rest last
  | h, .cons top :: rest, last =>
    let (h, result) := h.makeCons (h.cells top).car .nil
    match copyLoop fuel h (h.cells top).cdr result with
    | some (.ok (h, splice)) => appendRest fuel result h rest last splice
    | some (.error datum) => some (.error datum)
    | none => none
  | _, .other x :: _, _ => some (.error (.other x))

def twoArgAppend (fuel : ℕ) (h : Heap α) (arg1 arg2 : Value α) : Run α (Value α) :=
  match arg1 with
  | .nil => some (.ok (h, arg2))
  | .cons a =>
    let (h, result) := h.makeCons (h.cells a).car .nil
    match copyLoop fuel h (h.cells a).cdr result with
    | some (.ok (h, splice)) => some (.ok (h.setCdr splice arg2, .cons result))
    | some (.error datum) => some (.error datum)
    | none => none
  | .other x => some (.error (.other x))

/-- `CL_append` -/
def append (fuel : ℕ) (h : Heap α) (args : List (Value α)) : Run α (Value α) :=
  match args with
  | [] => some (.ok (h, .nil))
  | [arg] => some (.ok (h, arg))
  | [arg1, arg2] => twoArgAppend fuel h arg1 arg2
  | args => appendLoop fuel h args.dropLast (args.getLastD .nil)

/-! ## Links -/

/-- The inner loop of `nconc`: the first cons of all lists and the last one so far. -/
def nconcWalk (h : Heap α) : ℕ → Value α → Option ℕ → Option ℕ → Option (Option ℕ × Option ℕ)
  | 0, _, _, _ => none
  | fuel + 1, .cons list, none, _ => nconcWalk h fuel (h.cells list).cdr (some list) (some list)
  | fuel + 1, .cons list, some r, _ => nconcWalk h fuel (h.cells list).cdr (some r) (some list)
  | _ + 1, _, result, splice => some (result, splice)

def nconcLoop (fuel : ℕ) : Heap α → List (Value α) → Value α → Option ℕ → Option ℕ →
    Run α (Value α)
  | h, [], last, none, _ => some (.ok (h, last))
  | h, [], last, some r, splice => some (.ok (splice.elim h (h.setCdr · last), .cons r))
  | h, .nil :: rest, last, result, splice => nconcLoop fuel h rest last result splice
  | h, .cons list :: rest, last, result, splice =>
    let h := splice.elim h (h.setCdr · (.cons list))
    (nconcWalk h fuel (.cons list) result (splice.map fun _ => list)).bind fun (result, splice) =>
      nconcLoop fuel h rest last result splice
  | _, .other x :: _, _, _, _ => some (.error (.other x))

/-- `CL_nconc` -/
def nconc (fuel : ℕ) (h : Heap α) (args : List (Value α)) : Run α (Value α) :=
  match args with
  | [] => some (.ok (h, .nil))
  | [arg] => some (.ok (h, arg))
  | args => nconcLoop fuel h args.dropLast (args.getLastD .nil) none none

/-! ## Deletion is right -/

section Deletion

variable {test : Value α → Bool} {h : Heap α} {w : Value α}

/-- What a call does to a list with some conses and an end. -/
def Deletes (test : Value α → Bool) (h : Heap α) (as : List ℕ) (out : Run α (Value α)) :
    Value α → Prop
  | .other x => out = some (.error (.other x))
  | w => ∃ h' v' bs, out = some (.ok (h', v')) ∧ h'.Segment v' bs w ∧ bs ⊆ as ∧
      h'.elements bs = (h.elements as).filter (fun x => !test x) ∧ ∀ a ∉ as, h'.cells a = h.cells a

theorem Deletes.of_eq {h1 : Heap α} {as as1 : List ℕ} {out : Run α (Value α)}
    (hsub : as1 ⊆ as)
    (helements : (h1.elements as1).filter (fun x => !test x) =
      (h.elements as).filter fun x => !test x)
    (hsame : ∀ a ∉ as, h1.cells a = h.cells a) (hout : Deletes test h1 as1 out w) :
    Deletes test h as out w := by
  cases w with
  | other x => exact hout
  | nil | cons =>
    obtain ⟨h', v', bs, heq, hseg, hbs, hfilter, hcells⟩ := hout
    exact ⟨h', v', bs, heq, hseg, fun b hb => hsub (hbs hb), hfilter.trans helements,
      fun a ha => (hcells a fun ha1 => ha (hsub ha1)).trans (hsame a ha)⟩

theorem filter_elements {as : List ℕ} (hkept : ∀ a ∈ as, test (h.cells a).car = false) :
    (h.elements as).filter (fun x => !test x) = h.elements as := by
  rw [List.filter_eq_self]
  intro x hx
  obtain ⟨a, ha, rfl⟩ := List.mem_map.1 hx
  rw [hkept a ha]
  rfl

/-- The loop, by induction on the number of rounds; `first` are the conses that have been kept. -/
theorem listDeleteLoop_spec (hw : ∀ a, w ≠ .cons a) (list : ℕ) : ∀ {fuel : ℕ} {h : Heap α}
    {first rest : List ℕ} {tail : Value α} {splice : ℕ}, rest.length < fuel →
    h.Segment (.cons list) first tail → h.Segment tail rest w →
    (∀ a ∈ first, test (h.cells a).car = false) →
    (first = [] ∨ ∃ kept, first = kept ++ [splice]) →
    Deletes test h (first ++ rest) (listDeleteLoop test list fuel h tail splice) w
  | 0, _, _, _, _, _, hfuel, _, _, _, _ => absurd hfuel (Nat.not_lt_zero _)
  | fuel + 1, h, first, [], tail, splice, _, hfirst, hrest, hkept, hsplice => by
    rw [List.append_nil]
    cases w with
    | nil =>
      cases hrest
      exact ⟨h, .cons list, first, rfl, hfirst, List.Subset.refl _, (filter_elements hkept).symm,
        fun _ _ => rfl⟩
    | cons a => exact absurd rfl (hw a)
    | other x =>
      cases hrest
      rfl
  | fuel + 1, h, first, a :: rest, tail, splice, hfuel, hfirst, hrest, hkept, hsplice => by
    have hnodup := Heap.segment_nodup hw (Heap.segment_append.2 ⟨tail, hfirst, hrest⟩)
    have hsegment := Heap.segment_append.2 ⟨tail, hfirst, hrest⟩
    obtain ⟨rfl, ha, hrest⟩ := hrest
    obtain ⟨hfirst_nodup, hrest_nodup, hdisjoint⟩ := List.nodup_append.1 hnodup
    have hafirst : a ∉ first := fun h => hdisjoint a h a List.mem_cons_self rfl
    have harest := (List.nodup_cons.1 hrest_nodup).1
    rw [List.length_cons, Nat.add_lt_add_iff_right] at hfuel
    rw [listDeleteLoop]
    by_cases htest : test (h.cells a).car = true
    · rw [if_pos htest]
      have helements : (h.elements (first ++ a :: rest)).filter (fun x => !test x) =
          (h.elements (first ++ rest)).filter fun x => !test x := by
        rw [Heap.elements_append, Heap.elements_append, Heap.elements_cons, List.filter_append,
          List.filter_append, List.filter_cons_of_neg (by rw [htest]; decide)]
      cases rest with
      | nil =>
        change (h.cells a).cdr = w at hrest
        rw [hrest]
        cases w with
        | cons b => exact absurd rfl (hw b)
        | other x => rfl
        | nil =>
          refine Deletes.of_eq (List.subset_append_left _ _) (by rw [helements, List.append_nil])
            (fun _ _ => rfl) ?_
          have hfirst_elements := filter_elements hkept
          rcases hsplice with rfl | ⟨kept, rfl⟩
          · cases hfirst
            exact ⟨h, .nil, [], if_pos rfl, rfl, List.Subset.refl _, rfl, fun _ _ => rfl⟩
          · have hlist : a ≠ list := by
              rintro rfl
              cases kept with
              | nil => exact hafirst (by simp [Value.cons.inj hfirst.1])
              | cons b kept => exact hafirst (by simp [Value.cons.inj hfirst.1])
            have hsplice_kept : splice ∉ kept := fun h =>
              (List.nodup_append.1 hfirst_nodup).2.2 splice h splice List.mem_cons_self rfl
            refine ⟨_, _, kept ++ [splice], if_neg hlist, Heap.segment_setCdr hsplice_kept hfirst,
              List.Subset.refl _, ?_, fun b hb => Heap.cells_setCdr fun hbs => hb ?_⟩
            · rw [hfirst_elements, Heap.elements_setCdr]
            · rw [hbs]
              exact List.mem_append_right _ List.mem_cons_self
      | cons temp rest =>
        obtain ⟨hcdr, htemp, hrest⟩ := hrest
        rw [hcdr]
        -- the cons takes over what the next one holds
        have hne : ∀ b ∈ temp :: rest, b ≠ a := fun b hb hba => harest (by rwa [← hba])
        set h1 := (h.setCar a (h.cells temp).car).setCdr a
          ((h.setCar a (h.cells temp).car).cells temp).cdr with hh1
        have hcells : ∀ b, b ≠ a → h1.cells b = h.cells b := fun b hb =>
          (Heap.cells_setCdr hb).trans (Heap.cells_setCar hb)
        have hcar : (h1.cells a).car = (h.cells temp).car := by simp [hh1]
        have hcdr1 : (h1.cells a).cdr = (h.cells temp).cdr := by simp [hh1]
        have hfirst_ne : ∀ b ∈ first, h1.cells b = h.cells b := fun b hb =>
          hcells b fun hba => hafirst (by rwa [← hba])
        have hrest_ne : ∀ b ∈ rest, h1.cells b = h.cells b := fun b hb =>
          hcells b (hne b (List.mem_cons_of_mem _ hb))
        have hafter : h1.elements (first ++ a :: rest) = h.elements (first ++ temp :: rest) := by
          rw [Heap.elements_append, Heap.elements_append,
            Heap.elements_congr fun b hb => congrArg Cons.car (hfirst_ne b hb),
            Heap.elements_cons, Heap.elements_cons, hcar,
            Heap.elements_congr fun b hb => congrArg Cons.car (hrest_ne b hb)]
        have hlength : (a :: rest).length < fuel := by simpa using hfuel
        have hrec := listDeleteLoop_spec hw list hlength
          (Heap.segment_congr (show h.next ≤ h1.next from le_rfl)
            (fun b hb => congrArg Cons.cdr (hfirst_ne b hb)) hfirst)
          ⟨rfl, ha, by
            rw [hcdr1]
            exact Heap.segment_congr (show h.next ≤ h1.next from le_rfl)
              (fun b hb => congrArg Cons.cdr (hrest_ne b hb)) hrest⟩
          (fun b hb => by rw [hfirst_ne b hb]; exact hkept b hb) hsplice
        refine Deletes.of_eq ?_ (by rw [hafter, helements])
          (fun b hb => hcells b fun hba => hb ?_) hrec
        · refine List.append_subset.2 ⟨List.subset_append_left _ _, fun b hb => ?_⟩
          refine List.mem_append_right _ ?_
          rcases List.mem_cons.1 hb with rfl | hb
          · exact List.mem_cons_self
          · exact List.mem_cons_of_mem _ (List.mem_cons_of_mem _ hb)
        · rw [hba]
          exact List.mem_append_right _ List.mem_cons_self
    · rw [if_neg htest]
      have hmove : first ++ a :: rest = (first ++ [a]) ++ rest := by simp
      rw [hmove]
      refine listDeleteLoop_spec hw list hfuel (Heap.segment_append.2 ⟨_, hfirst, rfl, ha, rfl⟩)
        hrest ?_ (Or.inr ⟨first, rfl⟩)
      intro b hb
      rcases List.mem_append.1 hb with hb | hb
      · exact hkept b hb
      · rw [List.mem_singleton.1 hb]
        exact Bool.eq_false_iff.2 htest

theorem listDelete_spec (hw : ∀ a, w ≠ .cons a) {v : Value α} {as : List ℕ}
    (hseg : h.Segment v as w) {fuel : ℕ} (hfuel : as.length < fuel) :
    Deletes test h as (listDelete test fuel h v) w := by
  cases as with
  | nil =>
    cases hseg
    cases w with
    | nil => exact ⟨h, .nil, [], rfl, rfl, List.Subset.refl _, rfl, fun _ _ => rfl⟩
    | cons a => exact absurd rfl (hw a)
    | other x => rfl
  | cons a as =>
    obtain ⟨rfl, ha, hseg⟩ := hseg
    exact listDeleteLoop_spec hw a hfuel (show h.Segment (.cons a) [] _ from rfl) ⟨rfl, ha, hseg⟩
      (fun b hb => absurd hb List.not_mem_nil) (Or.inl rfl)

end Deletion

/-! ## Reversal is right -/

section Reversal

variable {h : Heap α}

/-- The loop: the conses `init` are turned around, in front of `list`. -/
theorem reverseLoop_spec : ∀ {fuel : ℕ} {h : Heap α} {init : List ℕ} {a c : ℕ} {list : Value α},
    init.length < fuel → (init ++ [c]).Nodup → h.Segment (.cons a) (init ++ [c]) .nil →
    ∃ h' list', reverseLoop fuel h a list = some (h', c, list') ∧ h'.next = h.next ∧
      h'.Segment list' init.reverse list ∧ (∀ b, (h'.cells b).car = (h.cells b).car) ∧
      ∀ b ∉ init, h'.cells b = h.cells b
  | 0, _, _, _, _, _, hfuel, _, _ => absurd hfuel (Nat.not_lt_zero _)
  | fuel + 1, h, [], a, c, list, _, _, hseg => by
    obtain ⟨hac, -, hcdr⟩ := hseg
    cases hac
    change (h.cells a).cdr = .nil at hcdr
    refine ⟨h, list, ?_, rfl, rfl, fun _ => rfl, fun _ _ => rfl⟩
    rw [reverseLoop, hcdr]
  | fuel + 1, h, b :: init, a, c, list, hfuel, hnodup, hseg => by
    obtain ⟨hab, ha, hseg⟩ := hseg
    cases hab
    obtain ⟨hb, hnodup⟩ := List.nodup_cons.1 hnodup
    have hsame : ∀ d ∈ init ++ [c], ((h.setCdr b list).cells d).cdr = (h.cells d).cdr :=
      fun d hd => by rw [Heap.cells_setCdr fun hdb => hb (by rwa [← hdb])]
    obtain ⟨d, hd⟩ := hseg.exists_cons
    rw [hd] at hseg
    obtain ⟨h', list', hloop, hnext, hseg', hcar, hcells⟩ :=
      @reverseLoop_spec fuel (h.setCdr b list) init d c (.cons b)
        (by simpa using hfuel) hnodup
        (Heap.segment_congr (Nat.le_of_eq Heap.next_setCdr.symm) hsame hseg)
    have hbinit : b ∉ init := fun hmem => hb (List.mem_append_left _ hmem)
    refine ⟨h', list', ?_, hnext, ?_, fun e => (hcar e).trans Heap.car_setCdr, fun e he => ?_⟩
    · rw [reverseLoop, hd]
      exact hloop
    · rw [List.reverse_cons]
      refine Heap.segment_append.2 ⟨_, hseg', rfl, ha.trans_eq hnext.symm, ?_⟩
      rw [hcells b hbinit]
      exact Heap.cdr_setCdr_self
    · rw [List.mem_cons, not_or] at he
      rw [hcells e he.2, Heap.cells_setCdr he.1]

theorem cells_swapCars {a b c : ℕ} (hba : b ≠ a) (hbc : b ≠ c) :
    (swapCars h a c).cells b = h.cells b :=
  (Heap.cells_setCar hbc).trans (Heap.cells_setCar hba)

theorem elements_swapCars {a c : ℕ} {middle : List ℕ} (ha : a ∉ middle) (hc : c ∉ middle)
    (hac : a ≠ c) : (swapCars h a c).elements (a :: middle ++ [c]) =
      (h.cells c).car :: h.elements middle ++ [(h.cells a).car] := by
  have hmiddle : (swapCars h a c).elements middle = h.elements middle :=
    Heap.elements_congr fun b hb => by
      rw [cells_swapCars (fun hba => ha (by rwa [← hba])) fun hbc => hc (by rwa [← hbc])]
  have hcar : ((swapCars h a c).cells a).car = (h.cells c).car := by
    rw [swapCars, Heap.cells_setCar hac, Heap.car_setCar_self]
  rw [List.cons_append, Heap.elements_cons, Heap.elements_append, hmiddle, hcar]
  simp [Heap.elements, swapCars]

/-- What a reversal does to a list: it keeps the first cons, and the reversed elements are in the
conses of the list, with the new end. -/
def Reverses (h : Heap α) (v : Value α) (as : List ℕ) (w : Value α) (out : Run α (Value α)) :
    Prop :=
  ∃ h' v' bs, out = some (.ok (h', v')) ∧ h'.Segment v' bs w ∧ bs.Perm as ∧
    (as ≠ [] → v' = v) ∧ h'.elements bs = (h.elements as).reverse ∧
    ∀ a ∉ as, h'.cells a = h.cells a

/-- The last steps, when the conses between the ends have been turned around. -/
theorem reverses_swapCars {h1 : Heap α} {a c : ℕ} {middle : List ℕ} {w : Value α}
    (hnodup : (a :: middle ++ [c]).Nodup)
    (hseg : h1.Segment (.cons a) (a :: middle.reverse ++ [c]) .nil)
    (hcar : ∀ b, (h1.cells b).car = (h.cells b).car)
    (hsame : ∀ b ∉ a :: middle ++ [c], h1.cells b = h.cells b) :
    Reverses h (.cons a) (a :: middle ++ [c]) w
      (some (.ok ((swapCars h1 a c).setCdr c w, .cons a))) := by
  obtain ⟨ha, hrest⟩ := List.nodup_cons.1 hnodup
  have hac : a ≠ c := fun h => ha (by rw [h]; exact List.mem_append_right _ List.mem_cons_self)
  have ha_middle : a ∉ middle := fun h => ha (List.mem_append_left _ h)
  have hc_middle : c ∉ middle := fun h =>
    (List.nodup_append.1 hrest).2.2 c h c List.mem_cons_self rfl
  have hperm : (a :: middle.reverse ++ [c]).Perm (a :: middle ++ [c]) :=
    ((List.reverse_perm middle).append_right [c]).cons a
  refine ⟨_, _, a :: middle.reverse ++ [c], rfl, Heap.segment_setCdr ?_
    (Heap.segment_congr (Nat.le_of_eq (by simp [swapCars])) (fun b _ => by simp [swapCars]) hseg),
    hperm, fun _ => rfl, ?_, fun b hb => ?_⟩
  · rw [List.mem_cons, List.mem_reverse, not_or]
    exact ⟨hac.symm, hc_middle⟩
  · rw [Heap.elements_setCdr, elements_swapCars (by rwa [List.mem_reverse])
      (by rwa [List.mem_reverse]) hac, hcar, hcar, Heap.elements_congr fun b _ => hcar b]
    simp [Heap.elements]
  · have hb' := hb
    simp only [List.cons_append, List.mem_cons, List.mem_append, List.not_mem_nil, or_false,
      not_or] at hb'
    rw [Heap.cells_setCdr hb'.2.2, cells_swapCars hb'.1 hb'.2.2, hsame b hb]

/-- The conses between the ends are turned around, and linked to the ends. -/
theorem segment_turned {h1 : Heap α} {a b c : ℕ} {middle : List ℕ} {list : Value α}
    (hnodup : (a :: b :: middle ++ [c]).Nodup) (ha : a < h1.next) (hc : c < h1.next)
    (hseg : h1.Segment list (b :: middle).reverse .nil) (hlast : (h1.cells c).cdr = .nil) :
    ((h1.setCdr a list).setCdr b (.cons c)).Segment (.cons a)
      (a :: (b :: middle).reverse ++ [c]) .nil := by
  simp only [List.cons_append, List.nodup_cons, List.mem_cons, List.mem_append, List.not_mem_nil,
    or_false, not_or] at hnodup
  obtain ⟨⟨hab, ha_middle, hac⟩, ⟨hb_middle, hbc⟩, -⟩ := hnodup
  refine ⟨rfl, ha, Heap.segment_append.2 ⟨.cons c, ?_, rfl, hc, ?_⟩⟩
  · rw [Heap.cells_setCdr hab, Heap.cdr_setCdr_self, List.reverse_cons]
    rw [List.reverse_cons] at hseg
    have hlink : (h1.setCdr a list).Segment list (middle.reverse ++ [b]) .nil := by
      refine Heap.segment_congr (Nat.le_of_eq Heap.next_setCdr.symm) (fun d hd => ?_) hseg
      rw [Heap.cells_setCdr]
      rintro rfl
      simp only [List.mem_append, List.mem_reverse, List.mem_singleton] at hd
      exact hd.elim ha_middle hab
    exact Heap.segment_setCdr (by rwa [List.mem_reverse]) hlink
  · rw [Heap.cells_setCdr (Ne.symm hbc), Heap.cells_setCdr (Ne.symm hac)]
    exact hlast

theorem reverseLoop_turned {fuel a b c : ℕ} {middle : List ℕ} (hfuel : middle.length + 1 < fuel)
    (hseg : h.Segment (.cons a) (a :: b :: middle ++ [c]) .nil) :
    ∃ h1 list h2, reverseLoop fuel h b .nil = some (h1, c, list) ∧ (h1.cells c).cdr = .nil ∧
      (h1.setCdr a list).setCdr b (.cons c) = h2 ∧ ((swapCars h2 a c).cells c).cdr = .nil ∧
      ∀ w, Reverses h (.cons a) (a :: b :: middle ++ [c]) w
        (some (.ok ((swapCars h2 a c).setCdr c w, .cons a))) := by
  have hnodup := Heap.segment_nodup Value.nil_ne_cons hseg
  obtain ⟨-, ha, hrest⟩ := hseg
  have hb := hrest.1
  rw [hb] at hrest
  obtain ⟨h1, list, hloop, hnext, hturned, hcar, hcells⟩ :=
    @reverseLoop_spec _ fuel h (b :: middle) b c .nil hfuel (List.nodup_cons.1 hnodup).2 hrest
  obtain ⟨u, -, -, hc, hlast⟩ := Heap.segment_append.1 hrest
  change (h.cells c).cdr = .nil at hlast
  have hmem : ∀ d, d ∈ a :: b :: middle ++ [c] ↔ d = a ∨ d = b ∨ d ∈ middle ∨ d = c := by simp
  have hne := hnodup
  simp only [List.cons_append, List.nodup_cons, List.mem_cons, List.mem_append, List.not_mem_nil,
    or_false, not_or] at hne
  obtain ⟨⟨hab, ha_middle, hac⟩, ⟨hb_middle, hbc⟩, hrest_nodup⟩ := hne
  have hc_middle : c ∉ middle := fun h =>
    (List.nodup_append.1 hrest_nodup).2.2 c h c List.mem_cons_self rfl
  have hc1 : h1.cells c = h.cells c := hcells c (by simp [hc_middle, Ne.symm hbc])
  refine ⟨h1, list, _, hloop, by rw [hc1, hlast], rfl, ?_, fun w => ?_⟩
  · simp [swapCars, Heap.cells_setCdr (Ne.symm hbc), Heap.cells_setCdr (Ne.symm hac), hc1, hlast]
  · refine @reverses_swapCars _ h _ a c (b :: middle) w hnodup
      (segment_turned hnodup (ha.trans_eq hnext.symm) (hc.trans_eq hnext.symm) hturned
        (by rw [hc1, hlast])) (fun d => by simp [hcar]) fun d hd => ?_
    have hd := mt (hmem d).2 hd
    simp only [not_or] at hd
    rw [Heap.cells_setCdr hd.2.1, Heap.cells_setCdr hd.1, hcells d (by simp [hd])]

theorem reverses_pair {a c : ℕ} (hseg : h.Segment (.cons a) [a, c] .nil) (w : Value α) :
    Reverses h (.cons a) [a, c] w (some (.ok ((swapCars h a c).setCdr c w, .cons a))) :=
  @reverses_swapCars _ h h a c [] w (Heap.segment_nodup Value.nil_ne_cons hseg) hseg
    (fun _ => rfl) fun _ _ => rfl

theorem nreconc_spec {v w : Value α} {as : List ℕ} (hseg : h.Segment v as .nil) {fuel : ℕ}
    (hfuel : as.length < fuel) : Reverses h v as w (nreconc fuel h v w) := by
  match as, hseg with
  | [], hseg =>
    cases hseg
    exact ⟨h, w, [], rfl, rfl, .refl _, fun h => absurd rfl h, rfl, fun _ _ => rfl⟩
  | [a], ⟨hv, ha, hcdr⟩ =>
    subst hv
    change (h.cells a).cdr = .nil at hcdr
    rw [nreconc, hcdr]
    refine ⟨_, _, [a], rfl, ⟨rfl, ha, Heap.cdr_setCdr_self⟩, .refl _, fun _ => rfl, ?_, ?_⟩
    · rw [Heap.elements_setCdr]
      rfl
    · exact fun b hb => Heap.cells_setCdr fun h => hb (by rw [h]; exact List.mem_cons_self)
  | a :: b :: rest, hseg =>
    obtain ⟨rfl, ha, hcdr, hb, hrest⟩ := id hseg
    rcases List.eq_nil_or_concat rest with rfl | ⟨middle, c, rfl⟩
    · change (h.cells b).cdr = .nil at hrest
      rw [nreconc, hcdr]
      dsimp only
      rw [hrest]
      exact reverses_pair hseg w
    · rw [List.concat_eq_append] at hrest hseg hfuel ⊢
      obtain ⟨d, hd⟩ := hrest.exists_cons
      simp only [List.length_cons, List.length_append, List.length_nil] at hfuel
      have hlength : middle.length + 1 < fuel := by omega
      obtain ⟨h1, list, h2, hloop, hlast, rfl, hnil, hreverses⟩ :=
        reverseLoop_turned hlength hseg
      rw [nreconc, hcdr]
      dsimp only
      rw [hd, hloop]
      exact hreverses w

theorem nreverse_spec {v : Value α} {as : List ℕ} (hseg : h.Segment v as .nil) {fuel : ℕ}
    (hfuel : as.length < fuel) : Reverses h v as .nil (nreverse fuel h v) := by
  match as, hseg with
  | [], hseg =>
    cases hseg
    exact ⟨h, .nil, [], rfl, rfl, .refl _, fun h => absurd rfl h, rfl, fun _ _ => rfl⟩
  | [a], ⟨hv, ha, hcdr⟩ =>
    subst hv
    change (h.cells a).cdr = .nil at hcdr
    rw [nreverse, nreverseCons, hcdr]
    exact ⟨h, _, [a], rfl, ⟨rfl, ha, hcdr⟩, .refl _, fun _ => rfl, rfl, fun _ _ => rfl⟩
  | a :: b :: rest, hseg =>
    obtain ⟨rfl, ha, hcdr, hb, hrest⟩ := id hseg
    rcases List.eq_nil_or_concat rest with rfl | ⟨middle, c, rfl⟩
    · change (h.cells b).cdr = .nil at hrest
      have hswap := reverses_pair hseg .nil
      rw [Heap.setCdr_self (by simp [swapCars, hrest])] at hswap
      rw [nreverse, nreverseCons, hcdr]
      dsimp only
      rw [hrest]
      exact hswap
    · rw [List.concat_eq_append] at hrest hseg hfuel ⊢
      obtain ⟨d, hd⟩ := hrest.exists_cons
      simp only [List.length_cons, List.length_append, List.length_nil] at hfuel
      have hlength : middle.length + 1 < fuel := by omega
      obtain ⟨h1, list, h2, hloop, hlast, rfl, hnil, hreverses⟩ :=
        reverseLoop_turned hlength hseg
      have hswap := hreverses .nil
      rw [Heap.setCdr_self hnil] at hswap
      rw [nreverse, nreverseCons, hcdr]
      dsimp only
      rw [hd, hloop]
      dsimp only [Option.map_some]
      rw [hlast]
      exact hswap

end Reversal

/-! ## Copies are right -/

section Copies

variable {h h0 : Heap α} {xs : List (Value α)} {result splice : ℕ}

/-- New conses that hold some objects, with the last one at `splice`; the old heap is unchanged. -/
structure Copied (h0 : Heap α) (xs : List (Value α)) (h : Heap α) (result splice : ℕ) : Prop where
  same : ∀ a < h0.next, h.cells a = h0.cells a
  le : h0.next ≤ h.next
  cells : ∃ as, h.Segment (.cons result) (as ++ [splice]) .nil ∧
    h.elements (as ++ [splice]) = xs ∧ ∀ a ∈ as ++ [splice], h0.next ≤ a

theorem Copied.makeCons (h : Heap α) (x : Value α) :
    Copied h [x] (h.makeCons x .nil).1 h.next h.next where
  same a ha := Heap.cells_makeCons ha.ne
  le := Nat.le_succ _
  cells := ⟨[], ⟨rfl, Nat.lt_succ_self _, by rw [Heap.makeCons_self]; rfl⟩,
    by simp [Heap.elements], by simp⟩

theorem Copied.step (hcopied : Copied h0 xs h result splice) (x : Value α) :
    Copied h0 (xs ++ [x]) ((h.makeCons x .nil).1.setCdr splice (.cons h.next)) result h.next := by
  obtain ⟨as, hseg, helements, hnew⟩ := hcopied.cells
  have hsplice : splice ∉ as := fun h =>
    (List.nodup_append.1 (Heap.segment_nodup Value.nil_ne_cons hseg)).2.2 splice h splice
      List.mem_cons_self rfl
  have hlt : ∀ a ∈ as ++ [splice], a < h.next := hseg.lt
  have hne : h.next ≠ splice := (hlt splice (by simp)).ne'
  have hmade : (h.makeCons x .nil).1.Segment (.cons result) (as ++ [splice]) .nil :=
    Heap.segment_congr (Nat.le_succ _)
      (fun a ha => by rw [Heap.cells_makeCons (hlt a ha).ne]) hseg
  refine ⟨fun a ha => ?_, hcopied.le.trans (Nat.le_succ _), as ++ [splice], ?_, ?_, fun a ha => ?_⟩
  · have ha' : a ≠ splice := (ha.trans_le (hnew splice (by simp))).ne
    rw [Heap.cells_setCdr ha', Heap.cells_makeCons (ha.trans_le hcopied.le).ne, hcopied.same a ha]
  · refine Heap.segment_append.2 ⟨_, Heap.segment_setCdr hsplice hmade, rfl, Nat.lt_succ_self _, ?_⟩
    rw [Heap.cells_setCdr hne, Heap.makeCons_self]
    rfl
  · have hold : (h.makeCons x .nil).1.elements (as ++ [splice]) = xs := by
      rw [← helements]
      exact Heap.elements_congr fun a ha => by rw [Heap.cells_makeCons (hlt a ha).ne]
    rw [Heap.elements_setCdr, Heap.elements_append, hold]
    simp [Heap.elements]
  · rcases List.mem_append.1 ha with ha | ha
    · exact hnew a ha
    · rw [List.mem_singleton.1 ha]
      exact hcopied.le

theorem copyLoop_spec : ∀ {fuel : ℕ} {h : Heap α} {xs : List (Value α)} {splice : ℕ} {top : Value α}
    {as : List ℕ}, as.length < fuel → h0.Segment top as .nil → Copied h0 xs h result splice →
    ∃ h' splice', copyLoop fuel h top splice = some (.ok (h', splice')) ∧
      Copied h0 (xs ++ h0.elements as) h' result splice'
  | 0, _, _, _, _, _, hfuel, _, _ => absurd hfuel (Nat.not_lt_zero _)
  | _ + 1, h, xs, splice, _, [], _, hseg, hcopied => by
    cases hseg
    refine ⟨h, splice, rfl, ?_⟩
    rwa [Heap.elements, List.map_nil, List.append_nil]
  | fuel + 1, h, xs, splice, _, a :: as, hfuel, ⟨hv, ha, hseg⟩, hcopied => by
    subst hv
    have hstep := hcopied.step (h.cells a).car
    have hcdr := congrArg Cons.cdr (hstep.same a ha)
    rw [← hcdr] at hseg
    obtain ⟨h', splice', hloop, hcopied'⟩ := copyLoop_spec (by simpa using hfuel) hseg hstep
    refine ⟨h', splice', hloop, ?_⟩
    rwa [Heap.elements_cons, ← hcopied.same a ha, List.append_cons]

/-- The results of `append`: copies, and the last argument behind them. -/
def Appends (h0 : Heap α) (xs : List (Value α)) (last : Value α) (out : Run α (Value α)) : Prop :=
  ∃ h v as, out = some (.ok (h, v)) ∧ h.Segment v as last ∧ h.elements as = xs ∧
    (∀ a ∈ as, h0.next ≤ a) ∧ h0.next ≤ h.next ∧ ∀ a < h0.next, h.cells a = h0.cells a

theorem Copied.appends (hcopied : Copied h0 xs h result splice) (last : Value α) :
    Appends h0 xs last (some (.ok (h.setCdr splice last, .cons result))) := by
  obtain ⟨as, hseg, helements, hnew⟩ := hcopied.cells
  have hsplice : splice ∉ as := fun h =>
    (List.nodup_append.1 (Heap.segment_nodup Value.nil_ne_cons hseg)).2.2 splice h splice
      List.mem_cons_self rfl
  refine ⟨_, _, as ++ [splice], rfl, Heap.segment_setCdr hsplice hseg, ?_, hnew, hcopied.le,
    fun a ha => ?_⟩
  · rw [Heap.elements_setCdr, helements]
  · rw [Heap.cells_setCdr (ha.trans_le (hnew splice (by simp))).ne, hcopied.same a ha]

/-- Lists of a heap, with their conses. -/
def Lists (h : Heap α) (lists : List (Value α × List ℕ)) : Prop :=
  ∀ p ∈ lists, h.Segment p.1 p.2 .nil

def conses (lists : List (Value α × List ℕ)) : List ℕ := lists.flatMap Prod.snd

theorem Lists.tail {p : Value α × List ℕ} {lists : List (Value α × List ℕ)}
    (hlists : Lists h (p :: lists)) : Lists h lists :=
  fun q hq => hlists q (List.mem_cons_of_mem _ hq)

theorem conses_cons (v : Value α) (as : List ℕ) (lists : List (Value α × List ℕ)) :
    conses ((v, as) :: lists) = as ++ conses lists := rfl

theorem appendRest_spec {fuel : ℕ} (last : Value α) : ∀ {lists : List (Value α × List ℕ)}
    {h : Heap α} {xs : List (Value α)} {splice : ℕ}, Lists h0 lists →
    (conses lists).length < fuel → Copied h0 xs h result splice →
    Appends h0 (xs ++ h0.elements (conses lists)) last
      (appendRest fuel result h (lists.map Prod.fst) last splice)
  | [], h, xs, splice, _, _, hcopied => by
    rw [conses, List.flatMap_nil, Heap.elements, List.map_nil, List.append_nil]
    exact hcopied.appends last
  | (top, as) :: lists, h, xs, splice, hlists, hfuel, hcopied => by
    rw [conses_cons, List.length_append] at hfuel
    have hseg : h0.Segment top as .nil := hlists _ List.mem_cons_self
    have hlength : as.length < fuel := by omega
    obtain ⟨h', splice', hloop, hcopied'⟩ := copyLoop_spec hlength hseg hcopied
    rw [List.map_cons, appendRest, hloop, conses_cons, Heap.elements_append, ← List.append_assoc]
    exact appendRest_spec last hlists.tail (by omega) hcopied'

theorem appendLoop_spec {fuel : ℕ} (last : Value α) : ∀ {lists : List (Value α × List ℕ)},
    Lists h0 lists → (conses lists).length < fuel →
    Appends h0 (h0.elements (conses lists)) last
      (appendLoop fuel h0 (lists.map Prod.fst) last)
  | [], _, _ => ⟨h0, last, [], rfl, rfl, rfl, by simp, le_rfl, fun _ _ => rfl⟩
  | (top, []) :: lists, hlists, hfuel => by
    have htop : top = .nil := hlists _ List.mem_cons_self
    subst htop
    exact @appendLoop_spec fuel last lists hlists.tail hfuel
  | (top, a :: as) :: lists, hlists, hfuel => by
    obtain ⟨rfl, ha, hseg⟩ : h0.Segment top (a :: as) .nil := hlists _ List.mem_cons_self
    rw [conses_cons, List.length_append, List.length_cons] at hfuel
    have hmade := Copied.makeCons h0 (h0.cells a).car
    rw [← congrArg Cons.cdr (hmade.same a ha)] at hseg
    have hlength : as.length < fuel := by omega
    obtain ⟨h', splice', hloop, hcopied⟩ := copyLoop_spec hlength hseg hmade
    have hrest : (conses lists).length < fuel := by omega
    rw [List.map_cons, appendLoop, conses_cons, Heap.elements_append, Heap.elements_cons]
    simp only [Heap.makeCons_address]
    rw [hloop]
    exact appendRest_spec last hlists.tail hrest hcopied

theorem twoArgAppend_eq (fuel : ℕ) (h : Heap α) (arg1 arg2 : Value α) :
    twoArgAppend fuel h arg1 arg2 = appendLoop fuel h [arg1] arg2 := by
  cases arg1 with
  | nil | other x => rfl
  | cons a =>
    rw [twoArgAppend, appendLoop]
    rfl

theorem append_spec {lists : List (Value α × List ℕ)} (hlists : Lists h lists) {fuel : ℕ}
    (hfuel : (conses lists).length < fuel) (last : Value α) :
    Appends h (h.elements (conses lists)) last
      (append fuel h (lists.map Prod.fst ++ [last])) := by
  have hloop := appendLoop_spec last hlists hfuel
  match lists with
  | [] => exact ⟨h, last, [], rfl, rfl, rfl, by simp, le_rfl, fun _ _ => rfl⟩
  | [p] =>
    rw [List.map_cons, List.map_nil, List.cons_append, List.nil_append, append, twoArgAppend_eq]
    exact hloop
  | p :: q :: lists =>
    have hargs : append fuel h ((p :: q :: lists).map Prod.fst ++ [last]) =
        appendLoop fuel h ((p :: q :: lists).map Prod.fst ++ [last]).dropLast
          (((p :: q :: lists).map Prod.fst ++ [last]).getLastD .nil) := by
      cases lists <;> rfl
    rw [hargs, List.dropLast_concat, List.getLastD_concat]
    exact hloop

end Copies

/-! ## Links are right -/

section Links

variable {h h0 : Heap α} {done : List ℕ} {result splice : Option ℕ}

theorem nconcWalk_spec {fuel : ℕ} {init : List ℕ} {a s : ℕ} {result splice : Option ℕ}
    (hfuel : init.length + 1 < fuel) (hseg : h.Segment (.cons a) (init ++ [s]) .nil) :
    nconcWalk h fuel (.cons a) result splice = some (some (result.getD a), some s) := by
  induction init generalizing fuel a result splice with
  | nil =>
    obtain ⟨fuel, rfl⟩ : ∃ n, fuel = n + 2 := ⟨fuel - 2, by rw [List.length_nil] at hfuel; omega⟩
    obtain ⟨has, -, hcdr⟩ := hseg
    cases has
    change (h.cells s).cdr = .nil at hcdr
    cases result <;> simp [nconcWalk, hcdr]
  | cons b init ih =>
    obtain ⟨fuel, rfl⟩ : ∃ n, fuel = n + 1 := ⟨fuel - 1, by omega⟩
    obtain ⟨hab, -, hseg⟩ := hseg
    cases hab
    obtain ⟨d, hd⟩ := hseg.exists_cons
    have hlength : init.length + 1 < fuel := by simpa using hfuel
    have hrec (r : ℕ) := @ih fuel d (some r) (some b) hlength (by rwa [← hd])
    cases result <;> rw [nconcWalk, hd, hrec] <;> rfl

/-- The lists so far are one, from `result` to `splice`. -/
structure Joined (h0 : Heap α) (done : List ℕ) (h : Heap α) (result splice : Option ℕ) : Prop where
  next : h.next = h0.next
  car : ∀ a, (h.cells a).car = (h0.cells a).car
  same : ∀ a ∉ done, h.cells a = h0.cells a
  link : done = [] ∧ result = none ∧ splice = none ∨ ∃ r s init, result = some r ∧
    splice = some s ∧ done = init ++ [s] ∧ h.Segment (.cons r) done .nil

theorem Joined.link_last (hjoined : Joined h0 done h result splice) (v : Value α) (a : ℕ) :
    (splice.elim h (h.setCdr · v)).next = h0.next ∧
      ((splice.elim h (h.setCdr · v)).cells a).car = (h0.cells a).car ∧
      (a ∉ done → (splice.elim h (h.setCdr · v)).cells a = h0.cells a) ∧
      (splice.elim h (h.setCdr · v)).Segment (result.elim v .cons) done v := by
  rcases hjoined.link with ⟨rfl, rfl, rfl⟩ | ⟨r, s, init, rfl, rfl, rfl, hseg⟩
  · exact ⟨hjoined.next, hjoined.car a, hjoined.same a, rfl⟩
  · have hs : s ∉ init := fun h =>
      (List.nodup_append.1 (Heap.segment_nodup Value.nil_ne_cons hseg)).2.2 s h s
        List.mem_cons_self rfl
    refine ⟨hjoined.next, Heap.car_setCdr.trans (hjoined.car a), fun ha => ?_,
      Heap.segment_setCdr hs hseg⟩
    exact (Heap.cells_setCdr fun has => ha (by simp [has])).trans (hjoined.same a ha)

/-- What `nconc` returns: the conses of the arguments, with new links. -/
def Nconcs (h0 : Heap α) (as : List ℕ) (last : Value α) (out : Run α (Value α)) : Prop :=
  ∃ h v, out = some (.ok (h, v)) ∧ h.next = h0.next ∧ h.Segment v as last ∧
    (∀ a, (h.cells a).car = (h0.cells a).car) ∧ ∀ a ∉ as, h.cells a = h0.cells a

theorem nconcLoop_spec {fuel : ℕ} (last : Value α) : ∀ {lists : List (Value α × List ℕ)}
    {h : Heap α} {done : List ℕ} {result splice : Option ℕ}, Lists h0 lists →
    (done ++ conses lists).Nodup → (conses lists).length < fuel →
    Joined h0 done h result splice →
    Nconcs h0 (done ++ conses lists) last
      (nconcLoop fuel h (lists.map Prod.fst) last result splice)
  | [], h, done, result, splice, _, _, _, hjoined => by
    have hlink := hjoined.link_last last
    rw [conses, List.flatMap_nil, List.append_nil]
    rcases hjoined.link with ⟨-, rfl, rfl⟩ | ⟨r, s, init, rfl, rfl, -, -⟩
    all_goals exact ⟨_, _, rfl, (hlink 0).1, (hlink 0).2.2.2, fun a => (hlink a).2.1,
      fun a => (hlink a).2.2.1⟩
  | (v, []) :: lists, h, done, result, splice, hlists, hnodup, hfuel, hjoined => by
    have hv : v = .nil := hlists _ List.mem_cons_self
    subst hv
    exact @nconcLoop_spec fuel last lists h done result splice hlists.tail hnodup hfuel hjoined
  | (v, a :: as) :: lists, h, done, result, splice, hlists, hnodup, hfuel, hjoined => by
    have hseg : h0.Segment v (a :: as) .nil := hlists _ List.mem_cons_self
    have hv := hseg.1
    subst hv
    rw [conses_cons, ← List.append_assoc] at hnodup ⊢
    rw [conses_cons, List.length_append] at hfuel
    have hlink := hjoined.link_last (.cons a)
    have hdisjoint : ∀ b ∈ a :: as, b ∉ done := fun b hb hdone =>
      (List.nodup_append.1 (List.nodup_append.1 hnodup).1).2.2 b hdone b hb rfl
    have hnew := Heap.segment_congr (Nat.le_of_eq (hlink 0).1.symm)
      (fun b hb => congrArg Cons.cdr ((hlink b).2.2.1 (hdisjoint b hb))) hseg
    rcases List.eq_nil_or_concat (a :: as) with hnil | ⟨init, s, hinit⟩
    · exact absurd hnil (List.cons_ne_nil _ _)
    rw [List.concat_eq_append] at hinit
    have hlength : init.length + 1 < fuel := by
      have := congrArg List.length hinit
      rw [List.length_append, List.length_singleton] at this
      omega
    rw [List.map_cons, nconcLoop, nconcWalk_spec hlength (by rw [← hinit]; exact hnew)]
    refine nconcLoop_spec last hlists.tail hnodup (by omega) ⟨(hlink 0).1, fun b => (hlink b).2.1,
      fun b hb => (hlink b).2.2.1 fun hdone => hb (List.mem_append_left _ hdone),
      Or.inr ⟨_, s, done ++ init, rfl, rfl, by rw [hinit, List.append_assoc], ?_⟩⟩
    refine Heap.segment_append.2 ⟨_, ?_, hnew⟩
    have hdone := (hlink 0).2.2.2
    cases result <;> exact hdone

theorem nconc_spec {lists : List (Value α × List ℕ)} (hlists : Lists h lists) {fuel : ℕ}
    (hfuel : (conses lists).length < fuel) (hnodup : (conses lists).Nodup) (last : Value α) :
    Nconcs h (conses lists) last (nconc fuel h (lists.map Prod.fst ++ [last])) := by
  have hloop := nconcLoop_spec last hlists (show ([] ++ conses lists).Nodup from hnodup) hfuel
    (⟨rfl, fun _ => rfl, fun _ _ => rfl, Or.inl ⟨rfl, rfl, rfl⟩⟩ : Joined h [] h none none)
  match lists with
  | [] => exact ⟨h, last, rfl, rfl, rfl, fun _ => rfl, fun _ _ => rfl⟩
  | p :: lists =>
    have hargs : nconc fuel h ((p :: lists).map Prod.fst ++ [last]) =
        nconcLoop fuel h ((p :: lists).map Prod.fst ++ [last]).dropLast
          (((p :: lists).map Prod.fst ++ [last]).getLastD .nil) none none := by
      cases lists <;> rfl
    rw [hargs, List.dropLast_concat, List.getLastD_concat]
    exact hloop

theorem append_nconc_elements {lists : List (Value α × List ℕ)} (hlists : Lists h lists)
    {fuel : ℕ} (hfuel : (conses lists).length < fuel) {last w : Value α} {bs : List ℕ}
    (hlast : h.Segment last bs w) (hnodup : (conses lists ++ bs).Nodup) :
    ∃ h1 v1 as1 h2 v2 as2,
      append fuel h (lists.map Prod.fst ++ [last]) = some (.ok (h1, v1)) ∧
      nconc fuel h (lists.map Prod.fst ++ [last]) = some (.ok (h2, v2)) ∧
      h1.Segment v1 as1 w ∧ h1.elements as1 = h.elements (conses lists ++ bs) ∧
      h2.Segment v2 as2 w ∧ h2.elements as2 = h.elements (conses lists ++ bs) := by
  obtain ⟨h1, v1, as, happend, hseg1, helements, -, hle, hsame⟩ := append_spec hlists hfuel last
  obtain ⟨hnodup', -, hdisjoint⟩ := List.nodup_append.1 hnodup
  obtain ⟨h2, v2, hnconc, hnext, hseg2, hcar, hcells⟩ := nconc_spec hlists hfuel hnodup' last
  have hsame1 : ∀ b ∈ bs, h1.cells b = h.cells b := fun b hb => hsame b (hlast.lt b hb)
  have hsame2 : ∀ b ∈ bs, h2.cells b = h.cells b :=
    fun b hb => hcells b fun hmem => hdisjoint b hmem b hb rfl
  have hrest1 : h1.Segment last bs w :=
    Heap.segment_congr hle (fun b hb => congrArg Cons.cdr (hsame1 b hb)) hlast
  refine ⟨h1, v1, as ++ bs, h2, v2, conses lists ++ bs, happend, hnconc,
    Heap.segment_append.2 ⟨_, hseg1, hrest1⟩, ?_, Heap.segment_append.2 ⟨_, hseg2,
      Heap.segment_congr hnext.ge (fun b hb => congrArg Cons.cdr (hsame2 b hb)) hlast⟩,
    Heap.elements_congr fun b _ => hcar b⟩
  rw [Heap.elements_append, helements, Heap.elements_append,
    Heap.elements_congr fun b hb => congrArg Cons.car (hsame1 b hb)]

end Links

/-! ## All operations -/

structure ListsRight [DecidableEq α] (objectEql : α → Value α → Bool) (h : Heap α) : Prop where
  deleteEq : ∀ item v as, h.Segment v as .nil → ∃ n, ∀ fuel ≥ n,
    Deletes (fun x => x = item) h as (listDeleteEq item fuel h v) .nil
  deleteEql : ∀ item v as, h.Segment v as .nil → ∃ n, ∀ fuel ≥ n,
    Deletes (fun x => eql objectEql x item) h as (listDeleteEql objectEql item fuel h v) .nil
  deleteDotted : ∀ item v as x, h.Segment v as (.other x) → ∃ n, ∀ fuel ≥ n,
    listDeleteEq item fuel h v = some (.error (.other x)) ∧
      listDeleteEql objectEql item fuel h v = some (.error (.other x))
  nreverse : ∀ v as, h.Segment v as .nil → ∃ n, ∀ fuel ≥ n,
    Reverses h v as .nil (nreverse fuel h v)
  nreconc : ∀ v as tail, h.Segment v as .nil → ∃ n, ∀ fuel ≥ n,
    Reverses h v as tail (nreconc fuel h v tail)
  append : ∀ lists last, Lists h lists → ∃ n, ∀ fuel ≥ n,
    Appends h (h.elements (conses lists)) last (append fuel h (lists.map Prod.fst ++ [last]))
  twoArgAppend : ∀ v as last, h.Segment v as .nil → ∃ n, ∀ fuel ≥ n,
    Appends h (h.elements as) last (twoArgAppend fuel h v last)
  nconc : ∀ lists last, Lists h lists → (conses lists).Nodup → ∃ n, ∀ fuel ≥ n,
    Nconcs h (conses lists) last (nconc fuel h (lists.map Prod.fst ++ [last]))
  sameElements : ∀ lists last bs w, Lists h lists → h.Segment last bs w →
    (conses lists ++ bs).Nodup → ∃ n, ∀ fuel ≥ n, ∃ h1 v1 as1 h2 v2 as2,
      Conses.append fuel h (lists.map Prod.fst ++ [last]) = some (.ok (h1, v1)) ∧
      Conses.nconc fuel h (lists.map Prod.fst ++ [last]) = some (.ok (h2, v2)) ∧
      h1.Segment v1 as1 w ∧ h1.elements as1 = h.elements (conses lists ++ bs) ∧
      h2.Segment v2 as2 w ∧ h2.elements as2 = h.elements (conses lists ++ bs)
  noArguments : ∀ fuel, Conses.append fuel h [] = some (.ok (h, .nil)) ∧
    Conses.nconc fuel h [] = some (.ok (h, .nil))

/-- **The operations are right in every heap.** -/
theorem listsRight [DecidableEq α] (objectEql : α → Value α → Bool) (h : Heap α) :
    ListsRight objectEql h where
  deleteEq item v as hseg :=
    ⟨as.length + 1, fun fuel hfuel => listDelete_spec Value.nil_ne_cons hseg hfuel⟩
  deleteEql item v as hseg :=
    ⟨as.length + 1, fun fuel hfuel => listDelete_spec Value.nil_ne_cons hseg hfuel⟩
  deleteDotted item v as x hseg := ⟨as.length + 1, fun fuel hfuel =>
    ⟨listDelete_spec (Value.other_ne_cons x) hseg hfuel,
      listDelete_spec (Value.other_ne_cons x) hseg hfuel⟩⟩
  nreverse v as hseg := ⟨as.length + 1, fun fuel hfuel => nreverse_spec hseg hfuel⟩
  nreconc v as tail hseg := ⟨as.length + 1, fun fuel hfuel => nreconc_spec hseg hfuel⟩
  append lists last hlists :=
    ⟨(conses lists).length + 1, fun fuel hfuel => append_spec hlists hfuel last⟩
  twoArgAppend v as last hseg := by
    refine ⟨as.length + 1, fun fuel hfuel => ?_⟩
    have hlists : Lists h [(v, as)] := fun p hp => by
      rw [List.mem_singleton.1 hp]
      exact hseg
    have hconses : conses [(v, as)] = as := List.append_nil as
    have happend := append_spec hlists (by rwa [hconses]) last
    rwa [hconses] at happend
  nconc lists last hlists hnodup :=
    ⟨(conses lists).length + 1, fun fuel hfuel => nconc_spec hlists hfuel hnodup last⟩
  sameElements lists last bs w hlists hlast hnodup := ⟨(conses lists).length + 1,
    fun fuel hfuel => append_nconc_elements hlists hfuel hlast hnodup⟩
  noArguments fuel := ⟨rfl, rfl⟩

end Xcl.Conses
