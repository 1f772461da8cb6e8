import Xcl.IR2.Cycles

/-!
# The optimisation loop ends

* **`optimizeIr2_stops`**: from a good vector the loop ends, and it ends only in vectors with short
  cycles.
-/

namespace Xcl.IR2

open Cycles (ShortOn orbit)

variable {P P' code rest : Code}

/-! ## Shifts -/

/-- What `optimize-ir2-5` leaves of the code from a point on. -/
def withShifts : Code → Code
  | [] => []
  | i :: code => (scan5 i code).reduceOption

theorem withShifts_of_ne {i : Instruction} (hi : ∀ shift reg, i ≠ .sar (.fixnum shift) reg)
    (code : Code) : withShifts (i :: code) = i :: withShifts code := by
  cases code with
  | nil => rfl
  | cons j code =>
    simp only [withShifts]
    rw [scan5]
    · simp
    · rintro shift₁ reg₁ shift₂ reg₂ rfl
      exact absurd rfl (hi shift₁ reg₁)

theorem withShifts_cons (i : Instruction) (code : Code) :
    withShifts (i :: code) = i :: withShifts code ∨
      ∃ shift₁ shift₂ reg rest, i = .sar (.fixnum shift₁) reg ∧
        code = .shl (.fixnum shift₂) reg :: rest ∧
        withShifts (i :: code) = .shl (.fixnum (shift₂ - shift₁)) reg :: withShifts rest := by
  cases code with
  | nil => exact .inl rfl
  | cons j code =>
    by_cases hi : ∃ shift₁ reg₁ shift₂ reg₂, i = .sar (.fixnum shift₁) reg₁ ∧
        j = .shl (.fixnum shift₂) reg₂
    · obtain ⟨shift₁, reg₁, shift₂, reg₂, rfl, rfl⟩ := hi
      simp only [withShifts, scan5]
      split_ifs with h
      · obtain ⟨rfl, h⟩ := h
        refine .inr ⟨shift₁, shift₂, reg₁, code, rfl, rfl, ?_⟩
        rw [List.reduceOption_cons_of_none]
        exact withShifts_of_ne (by simp) code
      · exact .inl (by simp)
    · refine .inl ?_
      simp only [withShifts]
      rw [scan5]
      · simp
      · rintro shift₁ reg₁ shift₂ reg₂ rfl rfl
        exact hi ⟨shift₁, reg₁, shift₂, reg₂, rfl, rfl⟩

theorem withShifts_induction {motive : Code → Prop} (nil : motive [])
    (keep : ∀ i code, withShifts (i :: code) = i :: withShifts code → motive code →
      motive (i :: code))
    (shift : ∀ shift₁ shift₂ reg code,
      withShifts (.sar (.fixnum shift₁) reg :: .shl (.fixnum shift₂) reg :: code) =
        .shl (.fixnum (shift₂ - shift₁)) reg :: withShifts code → motive code →
      motive (.sar (.fixnum shift₁) reg :: .shl (.fixnum shift₂) reg :: code)) (code : Code) :
    motive code := by
  induction hn : code.length using Nat.strong_induction_on generalizing code with
  | _ n ih =>
    cases code with
    | nil => exact nil
    | cons i code =>
      simp only [List.length_cons] at hn
      rcases withShifts_cons i code with h | ⟨shift₁, shift₂, reg, rest, rfl, rfl, h⟩
      · exact keep i code h (ih _ (by omega) code rfl)
      · simp only [List.length_cons] at hn
        exact shift shift₁ shift₂ reg rest h (ih _ (by omega) rest rfl)

theorem labels_withShifts (code : Code) : labels (withShifts code) = labels code := by
  induction code using withShifts_induction with
  | nil => rfl
  | keep i code h ih =>
    rw [h]
    rcases i.label_or_none with ⟨symbol, external, rfl⟩ | hi
    · rw [labels_cons_label, labels_cons_label, ih]
    · rw [labels_cons_of_none hi, labels_cons_of_none hi, ih]
  | shift shift₁ shift₂ reg code h ih =>
    rw [h, labels_cons_of_none rfl, labels_cons_of_none rfl, labels_cons_of_none rfl, ih]

theorem mem_of_mem_withShifts {short : Bool} {test : Test} {target : Label}
    (h : .jmp short test target ∈ withShifts code) : .jmp short test target ∈ code := by
  induction code using withShifts_induction with
  | nil => exact h
  | keep i code heq ih =>
    rw [heq] at h
    rcases List.mem_cons.mp h with rfl | h
    · exact List.mem_cons_self
    · exact List.mem_cons_of_mem _ (ih h)
  | shift shift₁ shift₂ reg code heq ih =>
    rw [heq] at h
    rcases List.mem_cons.mp h with h | h
    · cases h
    · exact List.mem_cons_of_mem _ (List.mem_cons_of_mem _ (ih h))

theorem after_withShifts (code : Code) (l : Label) :
    after (withShifts code) l = (after code l).map withShifts := by
  induction code using withShifts_induction with
  | nil => rfl
  | keep i code h ih =>
    rw [h]
    rcases i.label_or_none with ⟨symbol, external, rfl⟩ | hi
    · rw [after_cons_label, after_cons_label]
      split_ifs
      · rfl
      · exact ih
    · rw [after_cons_of_none hi, after_cons_of_none hi]
      exact ih
  | shift shift₁ shift₂ reg code h ih =>
    rw [h, after_cons_of_none rfl, after_cons_of_none rfl, after_cons_of_none rfl]
    exact ih

theorem skipLabels_withShifts (code : Code) :
    skipLabels (withShifts code) = withShifts (skipLabels code) := by
  induction code using withShifts_induction with
  | nil => rfl
  | keep i code h ih =>
    rcases i.label_or_none with ⟨symbol, external, rfl⟩ | hi
    · rw [h, skipLabels_label, skipLabels_label, ih]
    · rw [skipLabels_of_none hi, h, skipLabels_of_none hi]
  | shift shift₁ shift₂ reg code h ih =>
    rw [skipLabels_of_none rfl, h, skipLabels_of_none rfl]

theorem startsUncond_withShifts (code : Code) :
    startsUncond (skipLabels (withShifts code)) = startsUncond (skipLabels code) := by
  rw [skipLabels_withShifts]
  cases hcode : skipLabels code with
  | nil => rfl
  | cons i code =>
    rcases withShifts_cons i code with h | ⟨_, _, _, _, rfl, _, h⟩
    · rw [h]
      exact startsUncond_cons _ _ _
    · rw [h]
      rfl

theorem averOk_withShifts (h : AverOk code) : AverOk (withShifts code) := by
  induction code using withShifts_induction with
  | nil => exact h
  | keep i code heq ih =>
    rw [averOk_cons] at h
    rw [heq, averOk_cons]
    exact ⟨fun hi hno => (startsUncond_withShifts code).trans (h.1 hi hno), ih h.2⟩
  | shift shift₁ shift₂ reg code heq ih =>
    rw [heq]
    exact ih h

theorem length_withShifts (code : Code) : (withShifts code).length ≤ code.length ∧
    ((withShifts code).length = code.length → withShifts code = code) := by
  induction code using withShifts_induction with
  | nil => exact ⟨le_rfl, fun _ => rfl⟩
  | keep i code h ih =>
    rw [h]
    refine ⟨Nat.succ_le_succ ih.1, fun heq => ?_⟩
    rw [ih.2 (Nat.succ_injective heq)]
  | shift shift₁ shift₂ reg code h ih =>
    rw [h]
    simp only [List.length_cons]
    exact ⟨by omega, fun heq => by omega⟩

theorem length_scan5 (i : Instruction) (code : Code) :
    (scan5 i code).length = code.length + 1 := by
  fun_induction scan5 i code <;> simp_all

theorem optimizeIr2_5_eq (P : Code) : (optimizeIr2_5 P).1 = withShifts P := by
  cases P <;> rfl

theorem withShifts_linked (hP : Linked P) : Linked (withShifts P) where
  nodup := by
    rw [labels_withShifts]
    exact hP.nodup
  defined h := by
    rw [labels_withShifts]
    exact hP.defined (mem_of_mem_withShifts h)

theorem shrinks_5 (P : Code) : Shrinks P (optimizeIr2_5 P) := by
  cases P with
  | nil => exact ⟨nofun, fun _ => rfl⟩
  | cons i code => exact shrinks_finish (length_scan5 i code) (length_withShifts (i :: code)).2

/-- **`optimize-ir2-5`.** -/
theorem keeps_5 (hP : Good P) : Keeps P (optimizeIr2_5 P) where
  good := by
    rw [optimizeIr2_5_eq]
    refine ⟨withShifts_linked hP.linked, ?_, averOk_withShifts hP.aver⟩
    refine hP.short.of_image hP.linked (φ := withShifts) (fun {l rest'} hl => ?_)
      (fun {_ _ target rest} _ hrest => ?_) skipLabels_withShifts
      (fun short target code => ⟨_, withShifts_of_ne (by simp) code⟩)
      fun code h => (startsUncond_withShifts code).trans h
    · rw [after_withShifts, Option.map_eq_some_iff] at hl
      obtain ⟨rest, hrest, rfl⟩ := hl
      exact ⟨rest, hrest, rfl⟩
    · rw [after_withShifts, hrest]
      rfl
  toShrinks := shrinks_5 P

/-! ## Loads of `nil` -/

/-- What `optimize-ir2-8` leaves of the code behind the instructions `i` and `j`. -/
def withoutLoads : Option Instruction → Option Instruction → Code → Code
  | _, _, [] => []
  | i, j, k :: code =>
    if loadsNull i j k then withoutLoads j none code else k :: withoutLoads j (some k) code

theorem reduceOption_scan8 (i j : Option Instruction) (code : Code) :
    (scan8 i j code).reduceOption = i.toList ++ (j.toList ++ withoutLoads i j code) := by
  induction code generalizing i j with
  | nil => cases i <;> cases j <;> simp [scan8, withoutLoads]
  | cons k code ih =>
    have hcons : ∀ marks : List (Option Instruction),
        (i :: marks).reduceOption = i.toList ++ marks.reduceOption := by
      intro marks
      cases i <;> simp
    rw [scan8, hcons, ih, withoutLoads]
    split_ifs <;> rfl

theorem of_loadsNull {i j : Option Instruction} {k : Instruction} (h : loadsNull i j k = true) :
    (∃ operand1 operand2, i = some (.compareImmediate operand1 operand2)) ∧
    (∃ target, j = some (.jmp true (.cond .ne) target)) ∧
    ∃ operand1 operand2, k = .moveImmediate operand1 operand2 := by
  unfold loadsNull at h
  split at h
  · exact ⟨⟨_, _, rfl⟩, ⟨_, rfl⟩, _, _, rfl⟩
  · cases h

theorem withoutLoads_cons {i j : Option Instruction} {k : Instruction}
    (h : loadsNull i j k = false) (code : Code) :
    withoutLoads i j (k :: code) = k :: withoutLoads j (some k) code := by
  rw [withoutLoads, h]
  rfl

/-- What stands in front matters only if it is a comparison. -/
theorem withoutLoads_left {i : Option Instruction}
    (hi : ∀ operand1 operand2, i ≠ some (.compareImmediate operand1 operand2))
    (j : Option Instruction) (code : Code) : withoutLoads i j code = withoutLoads none j code := by
  cases code with
  | nil => rfl
  | cons k code =>
    have hno : loadsNull i j k = false := by
      rw [← Bool.not_eq_true]
      intro h
      obtain ⟨⟨operand1, operand2, rfl⟩, -⟩ := of_loadsNull h
      exact hi operand1 operand2 rfl
    rw [withoutLoads_cons hno, withoutLoads_cons rfl]

/-- A label makes the scan forget what stands in front of it. -/
theorem withoutLoads_label (i : Option Instruction) (symbol : Label) (external : Bool)
    (code : Code) :
    withoutLoads i (some (.label symbol external)) code = withoutLoads none none code := by
  cases code with
  | nil => rfl
  | cons k code =>
    have hno : loadsNull i (some (.label symbol external)) k = false := by
      rw [← Bool.not_eq_true]
      intro h
      obtain ⟨-, ⟨target, h⟩, -⟩ := of_loadsNull h
      cases h
    rw [withoutLoads_cons hno, withoutLoads_cons rfl, withoutLoads_left (by simp)]

theorem withoutLoads_cons_label (i j : Option Instruction) (symbol : Label) (external : Bool)
    (code : Code) : withoutLoads i j (.label symbol external :: code) =
      .label symbol external :: withoutLoads none none code := by
  have hno : loadsNull i j (.label symbol external) = false := by
    rw [← Bool.not_eq_true]
    intro h
    obtain ⟨-, -, operand1, operand2, h⟩ := of_loadsNull h
    cases h
  rw [withoutLoads_cons hno, withoutLoads_label]

theorem withoutLoads_sublist (i j : Option Instruction) (code : Code) :
    (withoutLoads i j code).Sublist code := by
  induction code generalizing i j with
  | nil => exact List.Sublist.refl _
  | cons k code ih =>
    rw [withoutLoads]
    split_ifs
    · exact (ih j none).cons k
    · exact (ih j (some k)).cons_cons k

theorem after_withoutLoads (i j : Option Instruction) (code : Code) (l : Label) :
    after (withoutLoads i j code) l = (after code l).map (withoutLoads none none) := by
  induction code generalizing i j with
  | nil => rfl
  | cons k code ih =>
    rcases k.label_or_none with ⟨symbol, external, rfl⟩ | hk
    · rw [withoutLoads_cons_label, after_cons_label, after_cons_label]
      split_ifs
      · rfl
      · exact ih none none
    · rw [after_cons_of_none hk, withoutLoads]
      split_ifs
      · exact ih j none
      · rw [after_cons_of_none hk]
        exact ih j (some k)

theorem skipLabels_withoutLoads (code : Code) :
    skipLabels (withoutLoads none none code) = withoutLoads none none (skipLabels code) := by
  induction code with
  | nil => rfl
  | cons k code ih =>
    rcases k.label_or_none with ⟨symbol, external, rfl⟩ | hk
    · rw [withoutLoads_cons_label, skipLabels_label, skipLabels_label, ih]
    · rw [withoutLoads_cons rfl, skipLabels_of_none hk, skipLabels_of_none hk,
        withoutLoads_cons rfl]

theorem startsUncond_withoutLoads (code : Code) :
    startsUncond (skipLabels (withoutLoads none none code)) = startsUncond (skipLabels code) :=
  startsUncond_of_head rfl (skipLabels_withoutLoads code) fun _ rest =>
    ⟨_, withoutLoads_cons rfl rest⟩

theorem startsUncond_behind {i : Option Instruction} {short : Bool} {test : Cond} {target : Label}
    (hno : negatedTest test = none) (code : Code) :
    startsUncond (skipLabels (withoutLoads i (some (.jmp short (.cond test) target)) code)) =
      startsUncond (skipLabels code) := by
  cases code with
  | nil => rfl
  | cons k code =>
    rcases k.label_or_none with ⟨symbol, external, rfl⟩ | hk
    · rw [withoutLoads_cons_label, skipLabels_label, skipLabels_label, startsUncond_withoutLoads]
    · have hkeep : loadsNull i (some (.jmp short (.cond test) target)) k = false := by
        rw [← Bool.not_eq_true]
        intro h
        obtain ⟨-, ⟨target', h⟩, -⟩ := of_loadsNull h
        cases h
        cases hno
      rw [withoutLoads_cons hkeep, skipLabels_of_none hk, skipLabels_of_none hk]
      exact startsUncond_cons _ _ _

theorem averOk_withoutLoads (i j : Option Instruction) (h : AverOk code) :
    AverOk (withoutLoads i j code) := by
  induction code generalizing i j with
  | nil => exact h
  | cons k code ih =>
    rw [averOk_cons] at h
    rw [withoutLoads]
    split_ifs
    · exact ih j none h.2
    · rw [averOk_cons]
      refine ⟨fun heq hno => ?_, ih j (some k) h.2⟩
      subst heq
      exact (startsUncond_behind hno code).trans (h.1 rfl hno)

theorem length_scan8 (i j : Option Instruction) (code : Code) :
    (scan8 i j code).length = code.length + 2 := by
  induction code generalizing i j with
  | nil => rfl
  | cons k code ih =>
    rw [scan8, List.length_cons, ih]
    rfl

theorem optimizeIr2_8_eq (P : Code) : (optimizeIr2_8 P).1 = withoutLoads none none P := by
  match P with
  | [] => rfl
  | [i] => rfl
  | i :: j :: code =>
    show (scan8 (some i) (some j) code).reduceOption = _
    rw [reduceOption_scan8, withoutLoads_cons rfl, withoutLoads_cons rfl]
    rfl

theorem withoutLoads_linked (hP : Linked P) : Linked (withoutLoads none none P) := by
  refine hP.sublist (withoutLoads_sublist none none P) fun {short test target} hmem => ?_
  obtain ⟨rest, hrest⟩ := exists_after (hP.defined ((withoutLoads_sublist none none P).subset hmem))
  have hrest' := after_withoutLoads none none P target
  rw [hrest] at hrest'
  exact mem_labels_of_after hrest'

theorem shrinks_8 (P : Code) : Shrinks P (optimizeIr2_8 P) := by
  match P with
  | [] => exact ⟨nofun, fun _ => rfl⟩
  | [i] => exact ⟨nofun, fun _ => rfl⟩
  | i :: j :: code =>
    refine shrinks_of_sublist (length_scan8 (some i) (some j) code) ?_
    rw [reduceOption_scan8]
    exact ((withoutLoads_sublist _ _ code).cons_cons j).cons_cons i

/-- **`optimize-ir2-8`.** -/
theorem keeps_8 (hP : Good P) : Keeps P (optimizeIr2_8 P) where
  good := by
    rw [optimizeIr2_8_eq]
    refine ⟨withoutLoads_linked hP.linked, ?_, averOk_withoutLoads none none hP.aver⟩
    refine hP.short.of_image hP.linked (φ := withoutLoads none none) (fun {l rest'} hl => ?_)
      (fun {_ _ target rest} _ hrest => ?_) skipLabels_withoutLoads
      (fun short target code => ⟨_, withoutLoads_cons rfl code⟩)
      fun code h => (startsUncond_withoutLoads code).trans h
    · rw [after_withoutLoads, Option.map_eq_some_iff] at hl
      obtain ⟨rest, hrest, rfl⟩ := hl
      exact ⟨rest, hrest, rfl⟩
    · rw [after_withoutLoads, hrest]
      rfl
  toShrinks := shrinks_8 P

/-! ## Complete threading -/

theorem skipLabels_after (hmerge : merge false P = P) (hnodup : (labels P).Nodup) {l : Label}
    (hl : after P l = some rest) : skipLabels rest = rest := by
  have hl' : after (merge false P) l = some rest := by
    rw [hmerge]
    exact hl
  obtain ⟨rest', hrest', heq⟩ := exists_of_after_merge false hnodup hl'
  rw [hl] at hrest'
  cases hrest'
  cases rest with
  | nil => rfl
  | cons i rest =>
    rcases i.label_or_none with ⟨symbol, external, rfl⟩ | hi
    · have hlen := (merge_sublist false rest).length_le
      rw [merge] at heq
      rw [← heq, List.length_cons] at hlen
      omega
    · exact skipLabels_of_none hi rest

theorem merge_of_unchanged (h : (optimizeIr2_1b P).2 = false) : merge false P = P := by
  cases P with
  | nil => rfl
  | cons i code =>
    have hsub : (scan1b (some i) code fun _ => none).1.reduceOption.Sublist (i :: code) := by
      rw [reduceOption_scan1b]
      exact (merge_sublist _ code).cons_cons i
    have hsame := (shrinks_of_sublist (length_scan1b (some i) code _) hsub).same
    have hmerge : merge false (i :: code) =
        (scan1b (some i) code fun _ => none).1.reduceOption := by
      rw [reduceOption_scan1b]
      rcases i.label_or_none with ⟨symbol, external, rfl⟩ | hi
      · rfl
      · rw [merge_of_none hi, isLabel_of_none hi]
        rfl
    rw [hmerge]
    refine hsame ?_
    by_contra hchanged
    simp only [optimizeIr2_1b] at h
    rw [if_pos (by simpa using hchanged)] at h
    cases h

theorem scan3_of_not_mem {label : Option Label} {ht : Referrals} {l : Label}
    (hlabel : label ≠ some l) (hl : l ∉ labels code) : scan3 label code ht l = ht l := by
  fun_induction scan3 label code ht with
  | case1 => rfl
  | case2 label short target code ht ih =>
    rw [ih (by simp) hl, Function.update_of_ne]
    rintro rfl
    exact hlabel rfl
  | case3 label i code ht hno ih =>
    refine ih (by simp) fun hmem => hl ?_
    rcases i.label_or_none with ⟨symbol, external, rfl⟩ | hi
    · exact List.mem_cons_of_mem _ hmem
    · rw [labels_cons_of_none hi]
      exact hmem
  | case4 symbol external code ht ih =>
    rw [labels_cons_label, List.mem_cons, not_or] at hl
    exact ih (by simpa using Ne.symm hl.1) hl.2
  | case5 i code ht hno ih =>
    refine ih (by simp) fun hmem => hl ?_
    rcases i.label_or_none with ⟨symbol, external, rfl⟩ | hi
    · exact List.mem_cons_of_mem _ hmem
    · rw [labels_cons_of_none hi]
      exact hmem

/-- Without adjacent labels, the first loop of `optimize-ir2-3` records every label that an
unconditional jump follows. -/
theorem scan3_complete {label : Option Label} {ht : Referrals} {l target : Label} {short : Bool}
    (hmerge : merge label.isSome code = code) (hnodup : (labels code).Nodup)
    (h : after code l = some (.jmp short .t target :: rest)) :
    scan3 label code ht l = some target := by
  fun_induction scan3 label code ht with
  | case1 => cases h
  | case2 label short' target' code ht ih =>
    rw [merge_of_none rfl] at hmerge
    exact ih (List.tail_eq_of_cons_eq hmerge) hnodup h
  | case3 label i code ht hno ih =>
    rcases i.label_or_none with ⟨symbol, external, rfl⟩ | hi
    · have hlen := (merge_sublist false code).length_le
      simp only [Option.isSome_some, merge] at hmerge
      rw [hmerge, List.length_cons] at hlen
      omega
    · rw [merge_of_none hi] at hmerge
      rw [labels_cons_of_none hi] at hnodup
      rw [after_cons_of_none hi] at h
      exact ih (List.tail_eq_of_cons_eq hmerge) hnodup h
  | case4 symbol external code ht ih =>
    rw [labels_cons_label, List.nodup_cons] at hnodup
    rw [after_cons_label] at h
    split_ifs at h with hsym
    · subst hsym
      cases h
      have hmem : symbol ∉ labels rest := hnodup.1
      rw [scan3, scan3_of_not_mem (by simp) hmem, Function.update_self]
    · exact ih (List.tail_eq_of_cons_eq hmerge) hnodup.2 h
  | case5 i code ht hno ih =>
    have hi : i.labelSymbol = none := by
      rcases i.label_or_none with ⟨symbol, external, rfl⟩ | hi
      · exact absurd rfl (hno symbol external)
      · exact hi
    rw [Option.isSome_none, merge_of_none hi] at hmerge
    rw [labels_cons_of_none hi] at hnodup
    rw [after_cons_of_none hi] at h
    exact ih (List.tail_eq_of_cons_eq hmerge) hnodup h

/-- **Every jump to a jump is found** if there are no adjacent labels. -/
theorem complete_3 (hmerge : merge false P = P) (hnodup : (labels P).Nodup) {l target : Label}
    {short : Bool} (h : after P l = some (.jmp short .t target :: rest)) :
    threaded P l = target := by
  have hscan : scan3 none P (fun _ => none) l = some target :=
    scan3_complete hmerge hnodup h
  rw [threaded, hscan]
  rfl

theorem follow_complete (hmerge : merge false P = P) (hP : Linked P) {p : Code}
    (hp : p ∈ positions P) :
    follow (P.map (retarget (threaded P))) (p.map (retarget (threaded P))) =
      (follow P (follow P p)).map (retarget (threaded P)) := by
  by_cases hu : startsUncond p = true
  · obtain ⟨short, target, code, rfl⟩ := exists_of_uncond hu
    have hs := suffix_of_mem_positions hp
    obtain ⟨rest, hrest⟩ := hP.exists_after hs
    obtain ⟨rest', hrest'⟩ := exists_after (threaded_mem hP (hs.subset List.mem_cons_self))
    rw [follow_threaded hrest', follow_jmp hrest]
    have hskip := skipLabels_after hmerge hP.nodup hrest
    by_cases hu' : startsUncond rest = true
    · obtain ⟨short', target', code', rfl⟩ := exists_of_uncond hu'
      rw [complete_3 hmerge hP.nodup hrest] at hrest'
      rw [hskip, follow_jmp hrest']
    · have hu' : startsUncond rest = false := by simpa using hu'
      have hsame : threaded P target = target := by
        rcases threaded_cases hP.nodup target with h | ⟨short', rest'', h⟩
        · exact h
        · rw [hrest] at h
          cases h
          cases hu'
      rw [hsame, hrest] at hrest'
      cases hrest'
      rw [hskip, follow_of_not_uncond hu']
  · have hu : startsUncond p = false := by simpa using hu
    rw [follow_of_not_uncond hu, follow_of_not_uncond hu,
      follow_of_not_uncond (by rw [startsUncond_map (renames_retarget _), hu])]

/-! ## What gets smaller -/

def Instruction.jumpTarget : Instruction → Option Label
  | .jmp _ _ target => some target
  | _ => none

def point (P : Code) (l : Label) : Code := skipLabels ((after P l).getD [])

/-- The number of points that are reached from a label. -/
noncomputable def pathLength (P : Code) (l : Label) : ℕ := (orbit (follow P) (point P l)).ncard

/-- The number of points that are reached from the targets of the jumps. -/
noncomputable def pathLengths (P : Code) : ℕ :=
  ((P.filterMap Instruction.jumpTarget).map (pathLength P)).sum

theorem point_mem {l : Label} (h : l ∈ labels P) : point P l ∈ positions P := by
  obtain ⟨rest, hrest⟩ := exists_after h
  rw [point, hrest]
  exact mem_positions hrest

theorem finite_orbit {l : Label} (h : l ∈ labels P) : (orbit (follow P) (point P l)).Finite :=
  (finite_positions P).subset (Cycles.orbit_subset (fun _ => follow_mem) (point_mem h))

theorem point_map {l : Label} (h : l ∈ labels P) :
    point (P.map (retarget (threaded P))) l = (point P l).map (retarget (threaded P)) := by
  obtain ⟨rest, hrest⟩ := exists_after h
  have hf := renames_retarget (threaded P)
  simp only [point, hf.after_map, hrest]
  exact skipLabels_map hf rest

theorem pathLength_le (hmerge : merge false P = P) (hP : Linked P) {l : Label}
    (h : l ∈ labels P) : pathLength (P.map (retarget (threaded P))) l ≤ pathLength P l := by
  rw [pathLength, point_map h]
  refine Cycles.ncard_orbit_le (φ := List.map (retarget (threaded P))) (fun _ => follow_mem)
    (fun p hp => ⟨1, ?_⟩) (point_mem h) (finite_orbit h)
  exact follow_complete hmerge hP hp

theorem pathLength_lt (hmerge : merge false P = P) (hP : Good P) {l : Label} (h : l ∈ labels P)
    (hne : threaded P l ≠ l) :
    pathLength (P.map (retarget (threaded P))) (threaded P l) < pathLength P l := by
  have hnodup := hP.linked.nodup
  rcases threaded_cases hnodup l with heq | ⟨short, rest, hjmp⟩
  · exact absurd heq hne
  · have hs := isSuffix_of_after hjmp
    have hmem : threaded P l ∈ labels P := hP.linked.defined (hs.subset List.mem_cons_self)
    obtain ⟨rest', hrest'⟩ := exists_after hmem
    have hpoint : point P l = .jmp short .t (threaded P l) :: rest := by
      rw [point, hjmp]
      rfl
    have hpoint' : point P (threaded P l) = rest' := by
      rw [point, hrest']
      exact skipLabels_after hmerge hnodup hrest'
    have hfollow : follow P (point P l) = point P (threaded P l) := by
      rw [hpoint, follow_jmp hrest', point, hrest']
      rfl
    rw [pathLength, point_map hmem, ← hfollow]
    refine Cycles.ncard_orbit_lt (φ := List.map (retarget (threaded P))) hP.short
      (fun _ => follow_mem)
      (fun p hp => follow_complete hmerge hP.linked hp) (point_mem h) (fun hfix => ?_)
      (finite_orbit h)
    -- two labels with the same code behind them are the same label
    rw [hfollow, hpoint', hpoint] at hfix
    subst hfix
    obtain ⟨external, hs₁⟩ := suffix_of_after hjmp
    obtain ⟨external', hs₂⟩ := suffix_of_after hrest'
    have hlabel := (List.suffix_of_suffix_length_le hs₁ hs₂ (by simp)).eq_of_length (by simp)
    injection hlabel with hlabel
    injection hlabel with hlabel
    exact hne hlabel.symm

theorem jumpTargets_map (g : Label → Label) (code : Code) :
    (code.map (retarget g)).filterMap Instruction.jumpTarget =
      (code.filterMap Instruction.jumpTarget).map g := by
  rw [List.filterMap_map, List.map_filterMap]
  congr 1
  funext i
  cases i <;> rfl

theorem mem_jumpTargets {l : Label} (h : l ∈ P.filterMap Instruction.jumpTarget) :
    ∃ short test, .jmp short test l ∈ P := by
  obtain ⟨i, hi, hl⟩ := List.mem_filterMap.mp h
  cases i <;> simp only [Instruction.jumpTarget, Option.some.injEq, reduceCtorEq] at hl
  subst hl
  exact ⟨_, _, hi⟩

/-- **A round that only threads jumps** shortens the paths. -/
theorem pathLengths_lt (hmerge : merge false P = P) (hP : Good P)
    (hchanged : (optimizeIr2_3 P).2 = true) :
    pathLengths (optimizeIr2_3 P).1 < pathLengths P := by
  rw [optimizeIr2_3_eq, pathLengths, jumpTargets_map, List.map_map, pathLengths]
  refine List.sum_lt_sum _ _ (fun l hl => ?_) ?_
  · obtain ⟨short, test, hmem⟩ := mem_jumpTargets hl
    have hl := hP.linked.defined hmem
    by_cases heq : threaded P l = l
    · rw [Function.comp_apply, heq]
      exact pathLength_le hmerge hP.linked hl
    · exact (pathLength_lt hmerge hP hl heq).le
  · obtain ⟨i, hi, hreferred⟩ := List.any_eq_true.mp hchanged
    cases i with
    | jmp short test target =>
      refine ⟨target, List.mem_filterMap.mpr ⟨_, hi, rfl⟩, ?_⟩
      refine pathLength_lt hmerge hP (hP.linked.defined hi) fun heq => ?_
      simp only [referred3, Option.any_eq_true, decide_eq_true_eq] at hreferred
      obtain ⟨referral, hreferral, hne⟩ := hreferred
      rw [threaded, hreferral] at heq
      exact hne heq
    | _ => cases hreferred

theorem threaded_of_unchanged (h : (optimizeIr2_3 P).2 = false) {short : Bool} {test : Test}
    {target : Label} (hmem : .jmp short test target ∈ P) : threaded P target = target := by
  have hno : referred3 (scan3 none P fun _ => none) (.jmp short test target) = false := by
    rw [← Bool.not_eq_true] at h ⊢
    exact fun href => h (List.any_eq_true.mpr ⟨_, hmem, href⟩)
  unfold threaded
  cases hreferral : scan3 none P (fun _ => none) target with
  | none => rfl
  | some referral => simpa [referred3, hreferral] using hno

theorem optimizeIr2_3_of_unchanged (h : (optimizeIr2_3 P).2 = false) : (optimizeIr2_3 P).1 = P := by
  have hsame : ∀ i ∈ P, retarget (threaded P) i = i := by
    intro i hi
    cases i with
    | jmp short test target => rw [retarget, threaded_of_unchanged h hi]
    | _ => rfl
  rw [optimizeIr2_3_eq, List.map_congr_left hsame, List.map_id']

/-! ## The loop -/

theorem Shrinks.length_le {result : Code × Bool} (h : Shrinks P result) :
    result.1.length ≤ P.length := by
  cases hchanged : result.2 with
  | true => exact (h.shorter hchanged).le
  | false => rw [h.same hchanged]

theorem Shrinks.trans {r₁ r₂ : Code × Bool} (h₁ : Shrinks P r₁) (h₂ : Shrinks r₁.1 r₂) :
    Shrinks P (r₂.1, r₁.2 || r₂.2) where
  shorter h := by
    rcases Bool.or_eq_true_iff.mp h with h | h
    · exact h₂.length_le.trans_lt (h₁.shorter h)
    · exact (h₂.shorter h).trans_le h₁.length_le
  same h := by
    obtain ⟨hr₁, hr₂⟩ := Bool.or_eq_false_iff.mp h
    exact (h₂.same hr₂).trans (h₁.same hr₁)

theorem cases_of_shrinks {A : Code} {before behind : Bool} (h₁ : Shrinks P (A, before))
    (h₂ : Shrinks (optimizeIr2_3 A).1 (P', behind)) :
    ((before || ((optimizeIr2_3 A).2 || behind)) = true ∧ P'.length < P.length) ∨
    (before = false ∧ P' = (optimizeIr2_3 P).1 ∧
      (before || ((optimizeIr2_3 A).2 || behind)) = (optimizeIr2_3 P).2) := by
  have hlength : (optimizeIr2_3 A).1.length = A.length := by simp [optimizeIr2_3]
  cases before with
  | true =>
    have hlt := h₁.shorter rfl
    have hle := h₂.length_le
    simp only at hlt hle
    exact .inl ⟨rfl, by omega⟩
  | false =>
    obtain rfl : A = P := h₁.same rfl
    cases behind with
    | true =>
      have hlt := h₂.shorter rfl
      exact .inl ⟨by simp, by simpa [hlength] using hlt⟩
    | false =>
      obtain rfl : P' = (optimizeIr2_3 A).1 := h₂.same rfl
      exact .inr ⟨rfl, rfl, by simp⟩

/-- What a round has done: it has made the vector shorter, it has only threaded jumps, or it has
done nothing. -/
theorem round_cases {changed : Bool} (h : round P = some (P', changed)) :
    (changed = true ∧ P'.length < P.length) ∨
    (P' = (optimizeIr2_3 P).1 ∧ changed = (optimizeIr2_3 P).2 ∧ merge false P = P) := by
  simp only [round, Option.bind_eq_bind, Option.bind_eq_some_iff, Option.pure_def,
    Option.some.injEq, Prod.mk.injEq] at h
  obtain ⟨result, h₁c, hP', hchanged⟩ := h
  have before := (((shrinks_1 P).trans (shrinks_1b _)).trans (of_optimizeIr2_1c h₁c).2).trans
    (shrinks_2 _)
  have behind := ((shrinks_4 (optimizeIr2_3 (optimizeIr2_2 result.1).1).1).trans
    (shrinks_5 _)).trans (shrinks_8 _)
  rw [hP'] at behind
  simp only [Bool.or_assoc] at hchanged before behind
  rcases cases_of_shrinks before behind with ⟨hc, hlt⟩ | ⟨hbefore, hP₃, hc⟩
  · refine .inl ⟨?_, hlt⟩
    rw [← hchanged, ← hc]
    simp only [Bool.or_assoc]
  · refine .inr ⟨hP₃, ?_, ?_⟩
    · rw [← hchanged, ← hc]
      simp only [Bool.or_assoc]
    · simp only [Bool.or_eq_false_iff] at hbefore
      have hsame := (shrinks_1 P).same hbefore.1
      rw [hsame] at hbefore
      exact merge_of_unchanged hbefore.2.1

theorem round_good (hP : Good P) : ∃ P' changed, round P = some (P', changed) ∧ Good P' := by
  have g₁b := (keeps_1b (keeps_1 hP).good).good
  obtain ⟨result, h₁c, k₁c⟩ := keeps_1c g₁b
  have g₃ := good_3 (keeps_2 k₁c.good).good
  rw [← optimizeIr2_3_eq] at g₃
  exact ⟨_, _, by simp only [round, Option.bind_eq_bind, h₁c]; rfl,
    (keeps_8 (keeps_5 (keeps_4 g₃).good).good).good⟩

theorem round_linked {changed : Bool} (hP : Linked P) (h : round P = some (P', changed)) :
    Linked P' := by
  simp only [round, Option.bind_eq_bind, Option.bind_eq_some_iff, Option.pure_def,
    Option.some.injEq, Prod.mk.injEq] at h
  obtain ⟨result, h₁c, rfl, -⟩ := h
  have l₁b : Linked (optimizeIr2_1b (optimizeIr2_1 P).1).1 := by
    rcases optimizeIr2_1b_eq (optimizeIr2_1 P).1 with h | h
    · rw [h]
      exact live_linked hP
    · rw [h]
      exact merged_linked (live_linked hP) (renames_refer1b _)
  have l₃ := threaded_linked (withUsed_linked ((of_optimizeIr2_1c h₁c).1.linked l₁b))
  rw [optimizeIr2_8_eq, optimizeIr2_5_eq, optimizeIr2_4_eq, optimizeIr2_3_eq]
  exact withoutLoads_linked (withShifts_linked (withoutNext_linked l₃))

/-- In a vector that a round does not change, a jump behind the target of a jump leads back to that
target. -/
theorem shortCycles_of_unchanged (hP : Linked P) (hmerge : merge false P = P)
    (h : (optimizeIr2_3 P).2 = false) : ShortCycles P := by
  intro p hp n hn hcycle
  obtain ⟨m, rfl⟩ : ∃ m, n = m + 1 := ⟨n - 1, by omega⟩
  rw [Function.iterate_succ_apply'] at hcycle
  have hq := Cycles.iterate_mem (fun _ => follow_mem) hp m
  generalize (follow P)^[m] p = q at hcycle hq
  suffices hfix : follow P p = p by rw [hfix, hfix]
  by_cases hu : startsUncond p = true
  · by_cases hu' : startsUncond q = true
    · obtain ⟨short, target, code, rfl⟩ := exists_of_uncond hu'
      have hs := suffix_of_mem_positions hq
      obtain ⟨rest, hrest⟩ := hP.exists_after hs
      rw [follow_jmp hrest, skipLabels_after hmerge hP.nodup hrest] at hcycle
      subst hcycle
      obtain ⟨short', target', code', rfl⟩ := exists_of_uncond hu
      have htarget := complete_3 hmerge hP.nodup hrest
      rw [threaded_of_unchanged h (hs.subset List.mem_cons_self)] at htarget
      rw [← htarget] at hrest ⊢
      exact follow_jmp hrest _
    · rw [follow_of_not_uncond (by simpa using hu')] at hcycle
      rw [hcycle] at hu'
      exact absurd hu hu'
  · exact follow_of_not_uncond (by simpa using hu)

theorem optimizeIr2_succ {changed : Bool} (h : round P = some (P', changed)) (n : ℕ) :
    optimizeIr2 (n + 1) P = if changed then optimizeIr2 n P' else some P' := by
  simp only [optimizeIr2, h, Option.bind_eq_bind, Option.bind_some]
  rfl

theorem stops_of_good (n m : ℕ) (P : Code) (hn : P.length = n) (hm : pathLengths P = m)
    (hP : Good P) : ∃ k P', optimizeIr2 k P = some P' ∧ round P' = some (P', false) := by
  induction n using Nat.strong_induction_on generalizing m P with
  | _ n ihn =>
    induction m using Nat.strong_induction_on generalizing P with
    | _ m ihm =>
      obtain ⟨P', changed, hround, hP'⟩ := round_good hP
      rcases round_cases hround with ⟨rfl, hlt⟩ | ⟨hP₃, hchanged, hmerge⟩
      · obtain ⟨k, Q, hk, hQ⟩ := ihn _ (by omega) _ P' rfl rfl hP'
        exact ⟨k + 1, Q, by rw [optimizeIr2_succ hround, if_pos rfl, hk], hQ⟩
      · have hlength : P'.length = n := by
          rw [hP₃, ← hn]
          simp [optimizeIr2_3]
        cases changed with
        | true =>
          have hlt := pathLengths_lt hmerge hP hchanged.symm
          rw [← hP₃, hm] at hlt
          obtain ⟨k, Q, hk, hQ⟩ := ihm _ hlt P' hlength rfl hP'
          exact ⟨k + 1, Q, by rw [optimizeIr2_succ hround, if_pos rfl, hk], hQ⟩
        | false =>
          rw [optimizeIr2_3_of_unchanged hchanged.symm] at hP₃
          subst hP₃
          exact ⟨1, P', by rw [optimizeIr2_succ hround]; rfl, hround⟩

theorem shortCycles_of_stops (hP : Linked P) {n : ℕ} (h : optimizeIr2 n P = some P') :
    ShortCycles P' := by
  induction n generalizing P with
  | zero => cases h
  | succ n ih =>
    cases hround : round P with
    | none => simp [optimizeIr2, hround] at h
    | some result =>
      obtain ⟨Q, changed⟩ := result
      rw [optimizeIr2_succ hround] at h
      cases changed with
      | true => exact ih (round_linked hP hround) h
      | false =>
        cases h
        rcases round_cases hround with ⟨hc, -⟩ | ⟨hP₃, hchanged, hmerge⟩
        · cases hc
        · rw [optimizeIr2_3_of_unchanged hchanged.symm] at hP₃
          subst hP₃
          exact shortCycles_of_unchanged hP hmerge hchanged.symm

def shortCycle : Code :=
  [.jmp false (.cond .e) 1, .other 0, .label 0 false, .jmp false .t 1, .label 2 false, .other 1,
    .exit, .label 1 false, .jmp false .t 0]

theorem shortCycles_shortCycle : ShortCycles shortCycle := by
  rintro p ⟨l, rest, hl, rfl⟩ n - -
  simp only [shortCycle, after_cons_jmp, after_cons_label, after_cons_exit,
    after_cons_of_none (i := .other _) rfl] at hl
  split_ifs at hl <;> cases hl <;> rfl

/-- Three labels with jumps to `next₁`, `next₂` and `next₃`, and other code between them. -/
def longCycle (entry next₁ next₂ next₃ : Label) : Code :=
  [.jmp false (.cond .e) entry, .jmp false (.cond .l) 4, .jmp false (.cond .o) 5, .exit,
    .label 1 false, .jmp false .t next₁, .label 4 false, .other 0, .exit,
    .label 2 false, .jmp false .t next₂, .label 5 false, .other 1, .exit,
    .label 3 false, .jmp false .t next₃]

theorem round_longCycle : round (longCycle 1 2 3 1) = some (longCycle 2 3 1 2, true) ∧
    round (longCycle 2 3 1 2) = some (longCycle 1 2 3 1, true) := by
  decide

end Xcl.IR2
