import Xcl.IR2.Preserve

/-!
# Passes that change the targets of jumps

* `Renames`, `retarget`: every jump to `l` becomes a jump to `g l`;
* **`passes_preserve`**: the six control-flow passes preserve behaviour.
-/

namespace Xcl.IR2

open Behaviour (Matched sameBehaviour_of_matched)

variable {σ : Type} {P code rest : Code} {g : Label → Label}

/-- The map `f` of instructions sends jumps to `l` to `g l` and keeps labels and exits. -/
structure Renames (g : Label → Label) (f : Instruction → Instruction) : Prop where
  jmp : ∀ short test target, f (.jmp short test target) = .jmp short test (g target)
  label : ∀ symbol external, f (.label symbol external) = .label symbol external
  exit : f .exit = .exit
  straight : ∀ {i : Instruction}, i.straight = true → (f i).straight = true

variable {f : Instruction → Instruction}

theorem Renames.labelSymbol (hf : Renames g f) (i : Instruction) :
    (f i).labelSymbol = i.labelSymbol := by
  rcases i.kinds with ⟨symbol, external, rfl⟩ | ⟨short, test, target, rfl⟩ | rfl | hi
  · rw [hf.label]
  · rw [hf.jmp]
    rfl
  · rw [hf.exit]
  · rw [labelSymbol_of_straight hi, labelSymbol_of_straight (hf.straight hi)]

theorem Renames.labels_map (hf : Renames g f) (code : Code) :
    labels (code.map f) = labels code := by
  simp only [labels, List.filterMap_map]
  congr 1
  funext i
  exact hf.labelSymbol i

theorem Renames.after_map (hf : Renames g f) (code : Code) (l : Label) :
    after (code.map f) l = (after code l).map (List.map f) := by
  induction code with
  | nil => rfl
  | cons i code ih =>
    rcases i.label_or_none with ⟨symbol, external, rfl⟩ | hi
    · rw [List.map_cons, hf.label, after_cons_label, after_cons_label]
      split_ifs
      · rfl
      · exact ih
    · rw [List.map_cons, after_cons_of_none (by rw [hf.labelSymbol, hi]), after_cons_of_none hi]
      exact ih

theorem Renames.exists_jmp (hf : Renames g f) {short : Bool} {test : Test} {target : Label}
    (h : .jmp short test target ∈ code.map f) :
    ∃ target', target = g target' ∧ .jmp short test target' ∈ code := by
  obtain ⟨j, hj, heq⟩ := List.mem_map.mp h
  rcases j.kinds with ⟨symbol, external, rfl⟩ | ⟨short', test', target', rfl⟩ | rfl | hi
  · rw [hf.label] at heq
    cases heq
  · rw [hf.jmp] at heq
    cases heq
    exact ⟨target', rfl, hj⟩
  · rw [hf.exit] at heq
    cases heq
  · have := hf.straight hi
    rw [heq] at this
    simp [Instruction.straight] at this

theorem Renames.linked (hf : Renames g f) (hP : (labels P).Nodup)
    (hg : ∀ {short test target}, .jmp short test target ∈ P → g target ∈ labels P) :
    Linked (P.map f) where
  nodup := by
    rw [hf.labels_map]
    exact hP
  defined h := by
    rw [hf.labels_map]
    obtain ⟨target', rfl, hmem⟩ := hf.exists_jmp h
    exact hg hmem

/-- Every jump to `l` becomes a jump to `g l`. -/
def retarget (g : Label → Label) : Instruction → Instruction
  | .jmp short test target => .jmp short test (g target)
  | i => i

theorem retarget_of_straight {i : Instruction} (hi : i.straight = true) : retarget g i = i := by
  cases i <;> simp_all [Instruction.straight, retarget]

theorem renames_retarget (g : Label → Label) : Renames g (retarget g) where
  jmp _ _ _ := rfl
  label _ _ := rfl
  exit := rfl
  straight hi := by rwa [retarget_of_straight hi]

theorem WellFormed.retarget {P' : Code} (hP : WellFormed P) (hsub : P'.Sublist P)
    (hlinked : Linked (P'.map (retarget g))) : WellFormed (P'.map (retarget g)) where
  toLinked := hlinked
  supported h := by
    obtain ⟨target', -, hmem⟩ := (renames_retarget g).exists_jmp h
    exact hP.supported (hsub.subset hmem)
  noLabelCalls symbol h := by
    obtain ⟨j, hj, heq⟩ := List.mem_map.mp h
    cases j <;> simp only [IR2.retarget, reduceCtorEq, Instruction.call.injEq] at heq
    subst heq
    exact hP.noLabelCalls symbol (hsub.subset hj)

/-! ## Jumps to jumps -/

/-- What `optimize-ir2-3` records: a label and the unconditional jump right behind it. -/
theorem scan3_eq_some {label : Option Label} {ht : Referrals} {l target : Label}
    (h : scan3 label code ht l = some target) : ht l = some target ∨
      (label = some l ∧ ∃ short rest, code = .jmp short .t target :: rest) ∨
      ∃ external short rest, .label l external :: .jmp short .t target :: rest <:+ code := by
  fun_induction scan3 label code ht with
  | case1 label ht => exact .inl h
  | case2 label short target' code ht ih =>
    rcases ih h with h' | ⟨h', -⟩ | ⟨external, short', rest, h'⟩
    · by_cases hl : l = label
      · subst hl
        rw [Function.update_self] at h'
        cases h'
        exact .inr (.inl ⟨rfl, short, code, rfl⟩)
      · rw [Function.update_of_ne hl] at h'
        exact .inl h'
    · cases h'
    · exact .inr (.inr ⟨external, short', rest, h'.trans (List.suffix_cons _ _)⟩)
  | case3 label i code ht hno ih =>
    rcases ih h with h' | ⟨h', -⟩ | ⟨external, short', rest, h'⟩
    · exact .inl h'
    · cases h'
    · exact .inr (.inr ⟨external, short', rest, h'.trans (List.suffix_cons _ _)⟩)
  | case4 symbol external code ht ih =>
    rcases ih h with h' | ⟨h', short', rest, rfl⟩ | ⟨external', short', rest, h'⟩
    · exact .inl h'
    · cases h'
      exact .inr (.inr ⟨external, short', rest, List.suffix_rfl⟩)
    · exact .inr (.inr ⟨external', short', rest, h'.trans (List.suffix_cons _ _)⟩)
  | case5 i code ht hno ih =>
    rcases ih h with h' | ⟨h', -⟩ | ⟨external, short', rest, h'⟩
    · exact .inl h'
    · cases h'
    · exact .inr (.inr ⟨external, short', rest, h'.trans (List.suffix_cons _ _)⟩)

/-- The label that a jump to `l` is sent to. -/
def threaded (P : Code) (l : Label) : Label := (scan3 none P (fun _ => none) l).getD l

theorem refer3_eq (P : Code) : refer3 (scan3 none P fun _ => none) = retarget (threaded P) := by
  funext i
  cases i <;> rfl

/-- A jump is sent to the target of the jump it leads to, or not at all. -/
theorem threaded_cases (hP : (labels P).Nodup) (l : Label) : threaded P l = l ∨
    ∃ short rest, after P l = some (.jmp short .t (threaded P l) :: rest) := by
  unfold threaded
  cases h : scan3 none P (fun _ => none) l with
  | none => exact .inl rfl
  | some target =>
    rcases scan3_eq_some h with h' | ⟨h', -⟩ | ⟨external, short, rest, h'⟩
    · cases h'
    · cases h'
    · exact .inr ⟨short, rest, after_eq_some hP h'⟩

theorem threaded_mem (hP : Linked P) {short : Bool} {test : Test} {target : Label}
    (h : .jmp short test target ∈ P) : threaded P target ∈ labels P := by
  rcases threaded_cases hP.nodup target with heq | ⟨short', rest, hafter⟩
  · rw [heq]
    exact hP.defined h
  · exact hP.defined ((isSuffix_of_after hafter).subset List.mem_cons_self)

/-- The points that correspond in `optimize-ir2-3`: the same instruction, or a jump that the vector
still has to make. -/
inductive ThreadedAt (P : Code) : ℕ → Code × σ → Code × σ → Prop
  | same {code : Code} {s : σ} : code <:+ P →
    ThreadedAt P 0 (code, s) (code.map (retarget (threaded P)), s)
  | jump {code rest : Code} {s : σ} {short : Bool} {target : Label} :
    after P target = some rest →
    ThreadedAt P 1 (.jmp short .t target :: code, s) (rest.map (retarget (threaded P)), s)

theorem threadedAt_matched (hP : Linked P) (M : Machine σ) {k : ℕ} {c d : Code × σ}
    (h : ThreadedAt P k c d) :
    Matched (step M P) (step M (P.map (retarget (threaded P)))) (ThreadedAt P) k c d := by
  cases h with
  | jump hrest =>
    exact .left (step_jmp_taken rfl hrest _) Nat.zero_lt_one (.same (isSuffix_of_after hrest))
  | same hs =>
    rename_i code s
    cases code with
    | nil => exact .halt rfl rfl
    | cons i code =>
      have hs' := suffix_tail hs
      rcases i.kinds with ⟨symbol, external, rfl⟩ | ⟨short, test, target, rfl⟩ | rfl | hi
      · exact .silent 0 rfl rfl (.same hs')
      · cases htest : test.holds (M.flags s) with
        | false =>
          exact .silent 0 (step_jmp_not_taken htest _) (step_jmp_not_taken htest _) (.same hs')
        | true =>
          obtain ⟨rest, hrest⟩ := hP.exists_after hs
          obtain ⟨rest', hrest'⟩ := exists_after (threaded_mem hP (hs.subset List.mem_cons_self))
          have htaken : step M (P.map (retarget (threaded P)))
              ((.jmp short test target :: code).map (retarget (threaded P)), s) =
                .silent (rest'.map (retarget (threaded P)), s) :=
            step_jmp_taken htest (by rw [(renames_retarget _).after_map, hrest']; rfl) _
          rcases threaded_cases hP.nodup target with heq | ⟨short', rest'', hjmp⟩
          · rw [heq, hrest] at hrest'
            cases hrest'
            exact .silent 0 (step_jmp_taken htest hrest _) htaken
              (.same (isSuffix_of_after hrest))
          · exact .silent 1 (step_jmp_taken htest hjmp _) htaken (.jump hrest')
      · exact .halt rfl rfl
      · have hd : (i :: code).map (retarget (threaded P)) =
            i :: code.map (retarget (threaded P)) := by
          rw [List.map_cons, retarget_of_straight hi]
        rw [hd]
        exact .emit 0 (step_straight hi M P _ s) (step_straight hi M _ _ s) (.same hs')

theorem optimizeIr2_3_eq (P : Code) : (optimizeIr2_3 P).1 = P.map (retarget (threaded P)) := by
  simp only [optimizeIr2_3, refer3_eq]

theorem threaded_linked (hP : Linked P) : Linked (P.map (retarget (threaded P))) :=
  (renames_retarget _).linked hP.nodup fun h => threaded_mem hP h

/-- **`optimize-ir2-3` preserves behaviour.** -/
theorem optimizeIr2_3_preserves (hP : WellFormed P) : Preserves P (optimizeIr2_3 P).1 := by
  rw [optimizeIr2_3_eq]
  exact ⟨hP.retarget (List.Sublist.refl P) (threaded_linked hP.toLinked), fun _ M _ =>
    sameBehaviour_of_matched (fun _ _ _ h => threadedAt_matched hP.toLinked M h)
      (.same List.suffix_rfl)⟩

/-! ## Adjacent labels -/

/-- The instruction is a label that has not been killed. -/
def isLabel : Option Instruction → Bool
  | some (.label _ _) => true
  | _ => false

/-- What `optimize-ir2-1b` leaves of the code from a point on, before it changes the targets of
jumps; `prev` says that the instruction in front is a label that is left. -/
def merge : Bool → Code → Code
  | _, [] => []
  | true, .label _ _ :: code => merge false code
  | false, .label symbol external :: code => .label symbol external :: merge true code
  | _, i :: code => i :: merge false code

theorem merge_of_none {i : Instruction} (hi : i.labelSymbol = none) (prev : Bool) (code : Code) :
    merge prev (i :: code) = i :: merge false code := by
  cases i <;> cases prev <;> simp_all [Instruction.labelSymbol, merge]

theorem merge_sublist (prev : Bool) (code : Code) : (merge prev code).Sublist code := by
  induction code generalizing prev with
  | nil => cases prev <;> exact List.Sublist.refl _
  | cons i code ih =>
    rcases i.label_or_none with ⟨symbol, external, rfl⟩ | hi
    · cases prev with
      | true => exact (ih false).cons _
      | false => exact (ih true).cons_cons _
    · rw [merge_of_none hi]
      exact (ih false).cons_cons _

theorem isLabel_of_none {i : Instruction} (hi : i.labelSymbol = none) :
    isLabel (some i) = false := by
  cases i <;> simp_all [Instruction.labelSymbol, isLabel]

theorem reduceOption_scan1b (i : Option Instruction) (code : Code) (ht : Referrals) :
    (scan1b i code ht).1.reduceOption = i.toList ++ merge (isLabel i) code := by
  fun_induction scan1b i code ht with
  | case1 i ht => cases i <;> simp [merge]
  | case2 symbol₁ external symbol₂ external₂ code ht marks ht' heq ih =>
    rw [heq] at ih
    simpa [isLabel, merge] using ih
  | case3 i j code ht hno marks ht' heq ih =>
    rw [heq] at ih
    have hcons : (i :: marks).reduceOption = i.toList ++ marks.reduceOption := by
      cases i <;> simp
    rw [hcons, ih]
    congr 1
    rcases j.label_or_none with ⟨symbol, external, rfl⟩ | hj
    · have hi : isLabel i = false := by
        cases i with
        | none => rfl
        | some i =>
          rcases i.label_or_none with ⟨symbol', external', rfl⟩ | hi
          · exact absurd rfl (hno symbol' external' symbol external rfl)
          · exact isLabel_of_none hi
      rw [hi]
      rfl
    · rw [merge_of_none hj, isLabel_of_none hj]
      rfl

theorem scan1b_of_not_mem (i : Option Instruction) (code : Code) (ht : Referrals) {l : Label}
    (hl : l ∉ labels code) : (scan1b i code ht).2 l = ht l := by
  fun_induction scan1b i code ht with
  | case1 i ht => rfl
  | case2 symbol₁ external symbol₂ external₂ code ht marks ht' heq ih =>
    rw [labels_cons_label, List.mem_cons, not_or] at hl
    rw [heq] at ih
    rw [ih hl.2, Function.update_of_ne hl.1]
  | case3 i j code ht hno marks ht' heq ih =>
    rw [heq] at ih
    refine ih fun hmem => hl ?_
    rcases j.label_or_none with ⟨symbol, external, rfl⟩ | hj
    · exact List.mem_cons_of_mem _ hmem
    · rw [labels_cons_of_none hj]
      exact hmem

/-- **The first loop of `optimize-ir2-1b`.** A label is left, or killed and referred to the label in
front of it. -/
theorem scan1b_spec (i : Option Instruction) (code : Code) (ht : Referrals)
    (hnodup : (labels code).Nodup) {l : Label} (hl : after code l = some rest) :
    ((scan1b i code ht).2 l = ht l ∧ after (merge (isLabel i) code) l = some (merge true rest)) ∨
    ∃ symbol, (scan1b i code ht).2 l = some symbol ∧
      (((∃ external, i = some (.label symbol external)) ∧
        ∃ external, code = .label l external :: rest) ∨
      after (merge (isLabel i) code) symbol = some (merge false rest)) := by
  fun_induction scan1b i code ht with
  | case1 i ht => cases hl
  | case2 symbol₁ external symbol₂ external₂ code ht marks ht' heq ih =>
    rw [labels_cons_label, List.nodup_cons] at hnodup
    rw [after_cons_label] at hl
    split_ifs at hl with hsym
    · subst hsym
      cases hl
      have hframe := scan1b_of_not_mem none rest
        (Function.update ht symbol₂ (some symbol₁)) hnodup.1
      rw [heq, Function.update_self] at hframe
      exact .inr ⟨symbol₁, hframe, .inl ⟨⟨external, rfl⟩, external₂, rfl⟩⟩
    · rcases ih hnodup.2 hl with ⟨h₁, h₂⟩ | ⟨symbol, h₁, ⟨⟨_, h₂⟩, -⟩ | h₂⟩
      · rw [heq, Function.update_of_ne (Ne.symm hsym)] at h₁
        exact .inl ⟨h₁, h₂⟩
      · cases h₂
      · rw [heq] at h₁
        exact .inr ⟨symbol, h₁, .inr h₂⟩
  | case3 i j code ht hno marks ht' heq ih =>
    rcases j.label_or_none with ⟨symbol₂, external₂, rfl⟩ | hj
    · have hi : isLabel i = false := by
        cases i with
        | none => rfl
        | some i =>
          rcases i.label_or_none with ⟨symbol', external', rfl⟩ | hi
          · exact absurd rfl (hno symbol' external' symbol₂ external₂ rfl)
          · exact isLabel_of_none hi
      rw [labels_cons_label, List.nodup_cons] at hnodup
      rw [after_cons_label] at hl
      rw [hi, merge]
      split_ifs at hl with hsym
      · subst hsym
        cases hl
        have hframe := scan1b_of_not_mem (some (.label symbol₂ external₂)) rest ht hnodup.1
        rw [heq] at hframe
        exact .inl ⟨hframe, by simp⟩
      · rcases ih hnodup.2 hl with ⟨h₁, h₂⟩ | ⟨symbol, h₁, ⟨⟨_, h₂⟩, external', rfl⟩ | h₂⟩
        · rw [heq] at h₁
          exact .inl ⟨h₁, by rw [after_cons_label, if_neg hsym]; exact h₂⟩
        · cases h₂
          rw [heq] at h₁
          exact .inr ⟨symbol₂, h₁, .inr (by simp [merge])⟩
        · rw [heq] at h₁
          have hmem : symbol ∈ labels code :=
            ((merge_sublist _ code).filterMap _).subset (mem_labels_of_after h₂)
          refine .inr ⟨symbol, h₁, .inr ?_⟩
          rw [after_cons_label, if_neg (by rintro rfl; exact hnodup.1 hmem)]
          exact h₂
    · rw [labels_cons_of_none hj] at hnodup
      rw [after_cons_of_none hj] at hl
      rw [merge_of_none hj]
      rw [isLabel_of_none hj] at ih
      rcases ih hnodup hl with ⟨h₁, h₂⟩ | ⟨symbol, h₁, ⟨⟨_, h₂⟩, -⟩ | h₂⟩
      · rw [heq] at h₁
        exact .inl ⟨h₁, by rw [after_cons_of_none hj]; exact h₂⟩
      · cases h₂
        cases hj
      · rw [heq] at h₁
        exact .inr ⟨symbol, h₁, .inr (by rw [after_cons_of_none hj]; exact h₂)⟩

/-- The label that a jump to `l` is referred to. -/
def merged : Code → Label → Label
  | [], l => l
  | i :: code, l => ((scan1b (some i) code fun _ => none).2 l).getD l

theorem after_merged (hP : (labels P).Nodup) {l : Label} (hl : after P l = some rest) :
    ∃ prev, after (merge false P) (merged P l) = some (merge prev rest) := by
  cases P with
  | nil => cases hl
  | cons i code =>
    have hspec : ∀ hl : after code l = some rest, (labels code).Nodup →
        (merged (i :: code) l = l ∧
          after (merge (isLabel (some i)) code) l = some (merge true rest)) ∨
        ((∃ external, i = .label (merged (i :: code) l) external) ∧
          ∃ external, code = .label l external :: rest) ∨
        after (merge (isLabel (some i)) code) (merged (i :: code) l) = some (merge false rest) := by
      intro hl hnodup
      rcases scan1b_spec (some i) code (fun _ => none) hnodup hl with
        ⟨h₁, h₂⟩ | ⟨symbol, h₁, ⟨⟨external, h₂⟩, h₃⟩ | h₂⟩
      · exact .inl ⟨by simp [merged, h₁], h₂⟩
      · exact .inr (.inl ⟨⟨external, by simpa [merged, h₁] using h₂⟩, h₃⟩)
      · exact .inr (.inr (by simpa [merged, h₁] using h₂))
    rcases i.label_or_none with ⟨symbol, external, rfl⟩ | hi
    · rw [labels_cons_label, List.nodup_cons] at hP
      rw [after_cons_label] at hl
      rw [merge]
      split_ifs at hl with hsym
      · subst hsym
        cases hl
        have hself : merged (.label symbol external :: rest) symbol = symbol := by
          simp [merged, scan1b_of_not_mem _ rest _ hP.1]
        exact ⟨true, by simp [hself]⟩
      · rcases hspec hl hP.2 with ⟨h₁, h₂⟩ | ⟨⟨external', h₁⟩, external'', rfl⟩ | h₂
        · exact ⟨true, by rw [h₁, after_cons_label, if_neg hsym]; exact h₂⟩
        · injection h₁ with h₁
          exact ⟨false, by rw [after_cons_label, if_pos h₁]; rfl⟩
        · have hmem : merged (.label symbol external :: code) l ∈ labels code :=
            ((merge_sublist _ code).filterMap _).subset (mem_labels_of_after h₂)
          have hne : symbol ≠ merged (.label symbol external :: code) l := by
            intro h
            rw [← h] at hmem
            exact hP.1 hmem
          exact ⟨false, by rw [after_cons_label, if_neg hne]; exact h₂⟩
    · rw [labels_cons_of_none hi] at hP
      rw [after_cons_of_none hi] at hl
      rw [merge_of_none hi, after_cons_of_none hi]
      rw [isLabel_of_none hi] at hspec
      rcases hspec hl hP with ⟨h₁, h₂⟩ | ⟨⟨external', h₁⟩, -⟩ | h₂
      · exact ⟨true, by rw [h₁]; exact h₂⟩
      · rw [h₁] at hi
        cases hi
      · exact ⟨false, h₂⟩

/-- The points that correspond in `optimize-ir2-1b`. -/
def MergedAt (P : Code) (k : ℕ) (c d : Code × σ) : Prop :=
  c.1 <:+ P ∧ (∃ prev, d = ((merge prev c.1).map (retarget (merged P)), c.2)) ∧ k = c.1.length

/-- The simulation of `optimize-ir2-1b`: the vector passes a killed label alone. -/
theorem mergedAt_matched (hP : Linked P) (M : Machine σ) {k : ℕ} {c d : Code × σ}
    (h : MergedAt P k c d) :
    Matched (step M P) (step M ((merge false P).map (retarget (merged P)))) (MergedAt P) k c d := by
  obtain ⟨code, s⟩ := c
  obtain ⟨hs, ⟨prev, rfl⟩, rfl⟩ := h
  cases code with
  | nil => cases prev <;> exact .halt rfl rfl
  | cons i code =>
    have hs' := suffix_tail hs
    rcases i.kinds with ⟨symbol, external, rfl⟩ | ⟨short, test, target, rfl⟩ | rfl | hi
    · cases prev with
      | true => exact .left rfl (Nat.lt_succ_self _) ⟨hs', ⟨false, rfl⟩, rfl⟩
      | false => exact .silent _ rfl rfl ⟨hs', ⟨true, rfl⟩, rfl⟩
    · rw [merge_of_none rfl]
      cases htest : test.holds (M.flags s) with
      | true =>
        obtain ⟨rest, hrest⟩ := hP.exists_after hs
        obtain ⟨prev', hrest'⟩ := after_merged hP.nodup hrest
        have htaken : step M ((merge false P).map (retarget (merged P)))
            ((.jmp short test target :: merge false code).map (retarget (merged P)), s) =
              .silent ((merge prev' rest).map (retarget (merged P)), s) :=
          step_jmp_taken htest (by rw [(renames_retarget _).after_map, hrest']; rfl) _
        exact .silent _ (step_jmp_taken htest hrest _) htaken
          ⟨isSuffix_of_after hrest, ⟨prev', rfl⟩, rfl⟩
      | false =>
        exact .silent _ (step_jmp_not_taken htest _) (step_jmp_not_taken htest _)
          ⟨hs', ⟨false, rfl⟩, rfl⟩
    · rw [merge_of_none rfl]
      exact .halt rfl rfl
    · have hd : (merge prev (i :: code)).map (retarget (merged P)) =
          i :: (merge false code).map (retarget (merged P)) := by
        rw [merge_of_none (labelSymbol_of_straight hi), List.map_cons, retarget_of_straight hi]
      show Matched _ _ _ _ _ ((merge prev (i :: code)).map (retarget (merged P)), s)
      rw [hd]
      exact .emit _ (step_straight hi M P _ s) (step_straight hi M _ _ s) ⟨hs', ⟨false, rfl⟩, rfl⟩

/-- The hash table of `optimize-ir2-1b`. -/
def referrals : Code → Referrals
  | [] => fun _ => none
  | i :: code => (scan1b (some i) code fun _ => none).2

theorem renames_refer1b (P : Code) : Renames (merged P) (refer1b (referrals P)) where
  jmp _ _ _ := by cases P <;> rfl
  label _ _ := rfl
  exit := rfl
  straight {i} hi := by
    cases i with
    | call target => cases target <;> rfl
    | _ => simp_all [Instruction.straight, refer1b]

/-- The result of `optimize-ir2-1b`: the vector itself, or the vector without the killed labels. -/
theorem optimizeIr2_1b_eq (P : Code) :
    optimizeIr2_1b P = (P, false) ∨
      optimizeIr2_1b P = ((merge false P).map (refer1b (referrals P)), true) := by
  cases P with
  | nil => exact .inl rfl
  | cons i code =>
    simp only [optimizeIr2_1b]
    by_cases hchanged : (finish (scan1b (some i) code fun _ => none).1).2 = true
    · refine .inr ?_
      have hmerge : (finish (scan1b (some i) code fun _ => none).1).1 =
          merge false (i :: code) := by
        rw [finish, reduceOption_scan1b]
        rcases i.label_or_none with ⟨symbol, external, rfl⟩ | hi
        · rfl
        · rw [merge_of_none hi, isLabel_of_none hi]
          rfl
      rw [if_pos hchanged, hmerge]
      rfl
    · rw [if_neg hchanged]
      exact .inl rfl

theorem refer1b_eq (hP : WellFormed P) :
    (merge false P).map (refer1b (referrals P)) = (merge false P).map (retarget (merged P)) := by
  refine List.map_congr_left fun j hj => ?_
  cases j with
  | jmp short test target => exact (renames_refer1b P).jmp short test target
  | call target =>
    cases target with
    | label symbol => exact absurd ((merge_sublist false _).subset hj) (hP.noLabelCalls symbol)
    | function n => rfl
  | _ => rfl

theorem merged_linked (hP : Linked P) (hf : Renames (merged P) f) :
    Linked ((merge false P).map f) := by
  have hsub := merge_sublist false P
  refine hf.linked (hP.nodup.sublist (hsub.filterMap _)) fun {short test target} hmem => ?_
  obtain ⟨rest, hrest⟩ := exists_after (hP.defined (hsub.subset hmem))
  obtain ⟨prev, hrest'⟩ := after_merged hP.nodup hrest
  exact mem_labels_of_after hrest'

/-- **`optimize-ir2-1b` preserves behaviour.** -/
theorem optimizeIr2_1b_preserves (hP : WellFormed P) : Preserves P (optimizeIr2_1b P).1 := by
  rcases optimizeIr2_1b_eq P with h | h
  · rw [h]
    exact ⟨hP, fun _ _ _ => ⟨fun _ => Iff.rfl, fun _ _ => Iff.rfl⟩⟩
  · rw [h, refer1b_eq hP]
    exact ⟨hP.retarget (merge_sublist false P) (merged_linked hP.toLinked (renames_retarget _)),
      fun _ M _ => sameBehaviour_of_matched (fun _ _ _ h => mergedAt_matched hP.toLinked M h)
        ⟨List.suffix_rfl, ⟨false, rfl⟩, rfl⟩⟩

/-! ## All passes -/

/-- **The control-flow passes preserve behaviour.** Each of them turns a well-formed vector into a
well-formed one, in which every jump has a target, that executes the same straight-line
instructions and ends, or does not end, in the same way from every state. -/
theorem passes_preserve (hP : WellFormed P) :
    Preserves P (optimizeIr2_1 P).1 ∧ Preserves P (optimizeIr2_1b P).1 ∧
    (∃ P' changed, optimizeIr2_1c P = some (P', changed) ∧ Preserves P P') ∧
    Preserves P (optimizeIr2_2 P).1 ∧ Preserves P (optimizeIr2_3 P).1 ∧
    Preserves P (optimizeIr2_4 P).1 :=
  ⟨optimizeIr2_1_preserves hP, optimizeIr2_1b_preserves hP, optimizeIr2_1c_preserves hP,
    optimizeIr2_2_preserves hP, optimizeIr2_3_preserves hP, optimizeIr2_4_preserves hP⟩

/-- A loop with a jump over a jump and two adjacent labels. -/
def sampleLoop : Code :=
  [.label 0 false, .label 1 false, .other 7, .jmp true (.cond .ne) 2, .jmp false .t 1,
    .label 2 false, .exit]

theorem wellFormed_sampleLoop : WellFormed sampleLoop where
  nodup := by decide
  defined {short test target} h := by
    simp only [sampleLoop, List.mem_cons, reduceCtorEq, Instruction.jmp.injEq, List.not_mem_nil,
      false_or, or_false] at h
    rcases h with ⟨-, -, rfl⟩ | ⟨-, -, rfl⟩ <;> decide
  supported {short test target} h := by
    simp only [sampleLoop, List.mem_cons, reduceCtorEq, Instruction.jmp.injEq, List.not_mem_nil,
      false_or, or_false, and_false, false_and, Test.cond.injEq] at h
    obtain ⟨-, rfl, -⟩ := h
    rfl
  noLabelCalls symbol := by simp [sampleLoop]

/-- The passes on a loop. -/
theorem passes_preserve_sampleLoop :
    Preserves sampleLoop (optimizeIr2_1 sampleLoop).1 ∧
    Preserves sampleLoop (optimizeIr2_1b sampleLoop).1 ∧
    (∃ P' changed, optimizeIr2_1c sampleLoop = some (P', changed) ∧ Preserves sampleLoop P') ∧
    Preserves sampleLoop (optimizeIr2_2 sampleLoop).1 ∧
    Preserves sampleLoop (optimizeIr2_3 sampleLoop).1 ∧
    Preserves sampleLoop (optimizeIr2_4 sampleLoop).1 :=
  passes_preserve wellFormed_sampleLoop

end Xcl.IR2
