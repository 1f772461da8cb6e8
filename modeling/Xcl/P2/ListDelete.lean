import Xcl.Lib.ConsCells

/-!
# `list-delete-eq` and `list-delete-eql`

* **`listDelete_spec`**: the cells that remain hold the elements for which the test fails.
-/

namespace Xcl.P2

variable {α : Type}

/-- The loop from the cell `tail` on. `splice` is the last cell that has been kept. `none` where the
bound on the number of rounds is reached. -/
def listDeleteLoop (test : α → Bool) (list : ℕ) : ℕ → ℕ → ℕ → Cells α →
    Option (Option ℕ × Cells α)
  | 0, _, _, _ => none
  | rounds + 1, tail, splice, mem =>
    if test (mem tail).car then
      match (mem tail).cdr with
      | some temp =>
        listDeleteLoop test list rounds tail splice (Function.update mem tail (mem temp))
      | none =>
        -- the last cell
        if tail = list then some (none, mem)
        else some (some list, Function.update mem splice ⟨(mem splice).car, none⟩)
    else
      match (mem tail).cdr with
      | some next => listDeleteLoop test list rounds next tail mem
      | none => some (some list, mem)

/-- `SYS_list_delete_eq`, `SYS_list_delete_eql`: the test says whether an element is the item. -/
def listDelete (test : α → Bool) (rounds : ℕ) (list : Option ℕ) (mem : Cells α) :
    Option (Option ℕ × Cells α) :=
  match list with
  | none => some (none, mem)
  | some list => listDeleteLoop test list rounds list list mem

def Leaves (outcome : Option (Option ℕ × Cells α)) (elements : List α) : Prop :=
  ∃ result mem addresses, outcome = some (result, mem) ∧ Chain mem result addresses ∧
    mem.elements addresses = elements

/-- The loop, by induction on the cells behind `tail`; `first` are the cells that have been kept. -/
theorem listDeleteLoop_spec (test : α → Bool) (list : ℕ) : ∀ (rounds : ℕ) (rest first : List ℕ)
    (tail splice : ℕ) (mem : Cells α), rest.length < rounds →
    Chain mem (some list) (first ++ tail :: rest) → (first ++ tail :: rest).Nodup →
    (∀ a ∈ first, test (mem a).car = false) → (first = [] ∨ ∃ kept, first = kept ++ [splice]) →
    Leaves (listDeleteLoop test list rounds tail splice mem)
      ((mem.elements (first ++ tail :: rest)).filter fun x => !test x)
  | 0, _, _, _, _, _, h, _, _, _, _ => by omega
  | rounds + 1, rest, first, tail, splice, mem, hrounds, hchain, hnodup, hfirst, hsplice => by
    have htail : tail ∉ first := by
      intro h
      exact (List.nodup_append.mp hnodup).2.2 tail h tail List.mem_cons_self rfl
    obtain ⟨-, hrest⟩ := chain_append hchain
    have hkept : ((mem.elements first).filter fun x => !test x) = mem.elements first := by
      rw [List.filter_eq_self]
      intro x hx
      obtain ⟨a, ha, rfl⟩ := List.mem_map.mp hx
      rw [hfirst a ha]
      rfl
    rw [listDeleteLoop]
    by_cases htest : test (mem tail).car = true
    · rw [if_pos htest, elements_split, List.filter_append, hkept,
        List.filter_cons_of_neg (by simp [htest])]
      cases rest with
      | nil =>
        rw [chain_nil hrest]
        rcases hsplice with rfl | ⟨kept, rfl⟩
        · -- all cells have gone
          have hlist : tail = list := (Option.some.inj (chain_cons hchain).1).symm
          exact ⟨none, mem, [], if_pos hlist, trivial, rfl⟩
        · have hlist : tail ≠ list := by
            rintro rfl
            cases kept with
            | nil => exact htail (by simp [(Option.some.inj (chain_cons hchain).1)])
            | cons a kept => exact htail (by simp [(Option.some.inj (chain_cons hchain).1)])
          refine ⟨some list, _, kept ++ [splice], if_neg hlist, ?_, ?_⟩
          · rw [List.append_assoc] at hchain
            refine chain_replace (fun b hb => Function.update_of_ne ?_ _ _) hchain ⟨rfl, ?_⟩
            · rintro rfl
              have hkeptNodup := (List.nodup_append.mp hnodup).1
              exact (List.nodup_append.mp hkeptNodup).2.2 b hb b List.mem_cons_self rfl
            · rw [Function.update_self]
              trivial
          · refine (List.map_congr_left fun b _ => ?_).trans (List.append_nil _).symm
            by_cases hb : b = splice
            · rw [hb, Function.update_self]
            · rw [Function.update_of_ne hb]
      | cons temp rest =>
        obtain ⟨hcdr, hrest⟩ := chain_cons hrest
        rw [hcdr]
        have hne : tail ∉ temp :: rest := by
          have hcons := (List.nodup_append.mp hnodup).2.1
          exact (List.nodup_cons.mp hcons).1
        rw [List.mem_cons, not_or] at hne
        -- the cell takes over what the next one holds
        have hrec := listDeleteLoop_spec test list rounds rest first tail splice
          (Function.update mem tail (mem temp)) (by simpa using hrounds) ?_ ?_ ?_ hsplice
        · have hafter : Cells.elements (Function.update mem tail (mem temp))
              (first ++ tail :: rest) = mem.elements first ++ mem.elements (temp :: rest) := by
            rw [elements_split, elements_update htail, elements_update hne.2, Function.update_self]
            rfl
          rw [hafter, List.filter_append, hkept] at hrec
          exact hrec
        · refine chain_replace (fun b hb => Function.update_of_ne ?_ _ _) hchain ⟨rfl, ?_⟩
          · rintro rfl
            exact htail hb
          · rw [Function.update_self, chain_update hne.2]
            exact hrest
        · refine hnodup.sublist ?_
          simp
        · intro a ha
          rw [Function.update_of_ne]
          · exact hfirst a ha
          · rintro rfl
            exact htail ha
    · rw [if_neg htest, elements_split]
      cases rest with
      | nil =>
        rw [chain_nil hrest, List.filter_append, hkept,
          List.filter_cons_of_pos (by simpa using htest)]
        exact ⟨some list, mem, first ++ [tail], rfl, hchain, elements_split mem first tail []⟩
      | cons next rest =>
        obtain ⟨hcdr, hrest⟩ := chain_cons hrest
        rw [hcdr, ← elements_split]
        have hmove : first ++ tail :: next :: rest = (first ++ [tail]) ++ next :: rest := by simp
        rw [hmove] at hchain hnodup ⊢
        refine listDeleteLoop_spec test list rounds rest (first ++ [tail]) next tail mem
          (by simpa using hrounds) hchain hnodup ?_ (.inr ⟨first, rfl⟩)
        intro a ha
        rcases List.mem_append.mp ha with ha | ha
        · exact hfirst a ha
        · rw [List.mem_singleton.mp ha]
          simpa using htest

/-- **Both functions leave the elements for which the test fails**, in order. -/
theorem listDelete_spec (test : α → Bool) {mem : Cells α} {list : Option ℕ} {addresses : List ℕ}
    (hchain : Chain mem list addresses) (hnodup : addresses.Nodup) :
    Leaves (listDelete test (addresses.length + 1) list mem)
      ((mem.elements addresses).filter fun x => !test x) := by
  cases list with
  | none =>
    cases addresses with
    | nil => exact ⟨none, mem, [], rfl, trivial, rfl⟩
    | cons _ _ => exact hchain.elim
  | some list =>
    cases addresses with
    | nil => exact hchain.elim
    | cons a rest =>
      obtain ⟨rfl, -⟩ := id hchain
      exact listDeleteLoop_spec test list _ rest [] list list mem (by simp) hchain hnodup
        (fun _ h => by cases h) (.inl rfl)

end Xcl.P2
