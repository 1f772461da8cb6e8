import Xcl.Lib.Cycles
import Xcl.IR2.Threading

/-!
# Cycles of labels and jumps

Whether the loop of `optimize-ir2` ends depends on the labels that an unconditional jump follows.

* `skipLabels`, `follow`, `positions`: from the point behind a label to the next such point;
* `ShortCycles`: no cycle of such points has three or more.
-/

namespace Xcl.IR2

open Cycles (ShortOn)

variable {P P' code rest : Code}

/-- The code behind the labels at its beginning. -/
def skipLabels : Code → Code
  | .label _ _ :: code => skipLabels code
  | code => code

/-- The code begins with an unconditional jump. -/
def startsUncond : Code → Bool
  | .jmp _ .t _ :: _ => true
  | _ => false

/-- The next point, if there is an unconditional jump here. -/
def follow (P : Code) : Code → Code
  | .jmp short .t target :: code =>
    match after P target with
    | some rest => skipLabels rest
    | none => .jmp short .t target :: code
  | code => code

/-- The points behind the labels of a vector. -/
def positions (P : Code) : Set Code :=
  {p | ∃ l rest, after P l = some rest ∧ p = skipLabels rest}

/-- No cycle of labels that are followed by an unconditional jump to the next label has three or
more labels. Adjacent labels count as one. -/
def ShortCycles (P : Code) : Prop := ShortOn (follow P) (positions P)

/-- No conditional jump whose test has no negation is followed, but for labels, by an unconditional
jump. -/
def AverOk : Code → Prop
  | [] => True
  | .jmp _ (.cond test) _ :: code =>
    (negatedTest test = none → startsUncond (skipLabels code) = false) ∧ AverOk code
  | _ :: code => AverOk code

/-! ## Points -/

@[simp] theorem skipLabels_label (symbol : Label) (external : Bool) (code : Code) :
    skipLabels (.label symbol external :: code) = skipLabels code := by
  rw [skipLabels]

theorem skipLabels_of_none {i : Instruction} (hi : i.labelSymbol = none) (code : Code) :
    skipLabels (i :: code) = i :: code := by
  cases i <;> simp_all [Instruction.labelSymbol, skipLabels]

theorem skipLabels_suffix (code : Code) : skipLabels code <:+ code := by
  induction code with
  | nil => exact List.suffix_rfl
  | cons i code ih =>
    rcases i.label_or_none with ⟨symbol, external, rfl⟩ | hi
    · rw [skipLabels_label]
      exact ih.trans (List.suffix_cons _ _)
    · rw [skipLabels_of_none hi]

theorem skipLabels_cases (code : Code) :
    skipLabels code = [] ∨ ∃ i rest, skipLabels code = i :: rest ∧ i.labelSymbol = none := by
  induction code with
  | nil => exact .inl rfl
  | cons i code ih =>
    rcases i.label_or_none with ⟨symbol, external, rfl⟩ | hi
    · rw [skipLabels_label]
      exact ih
    · exact .inr ⟨i, code, skipLabels_of_none hi code, hi⟩

@[simp] theorem skipLabels_skipLabels (code : Code) :
    skipLabels (skipLabels code) = skipLabels code := by
  rcases skipLabels_cases code with h | ⟨i, rest, h, hi⟩
  · rw [h]
    rfl
  · rw [h, skipLabels_of_none hi]

theorem follow_of_not_uncond (h : startsUncond code = false) : follow P code = code := by
  unfold follow
  split
  · simp [startsUncond] at h
  · rfl

theorem follow_jmp {short : Bool} {target : Label} (h : after P target = some rest)
    (code : Code) : follow P (.jmp short .t target :: code) = skipLabels rest := by
  simp [follow, h]

theorem exists_of_uncond (h : startsUncond code = true) :
    ∃ short target rest, code = .jmp short .t target :: rest := by
  unfold startsUncond at h
  split at h
  · exact ⟨_, _, _, rfl⟩
  · cases h

theorem mem_positions {l : Label} (h : after P l = some rest) : skipLabels rest ∈ positions P :=
  ⟨l, rest, h, rfl⟩

theorem suffix_of_mem_positions {p : Code} (h : p ∈ positions P) : p <:+ P := by
  obtain ⟨l, rest, hl, rfl⟩ := h
  exact (skipLabels_suffix rest).trans (isSuffix_of_after hl)

theorem skipLabels_of_mem_positions {p : Code} (h : p ∈ positions P) : skipLabels p = p := by
  obtain ⟨l, rest, -, rfl⟩ := h
  exact skipLabels_skipLabels rest

theorem finite_positions (P : Code) : (positions P).Finite := by
  refine (List.finite_toSet P.tails).subset fun p hp => ?_
  exact (List.mem_tails p P).mpr (suffix_of_mem_positions hp)

theorem follow_mem {p : Code} (h : p ∈ positions P) : follow P p ∈ positions P := by
  by_cases hp : startsUncond p = true
  · obtain ⟨short, target, code, rfl⟩ := exists_of_uncond hp
    cases htarget : after P target with
    | none => simpa [follow, htarget] using h
    | some rest =>
      rw [follow_jmp htarget]
      exact mem_positions htarget
  · rw [follow_of_not_uncond (by simpa using hp)]
    exact h

/-- **Short cycles stay short** when the points of the result are images `φ p` of points, and a jump
of the result leads where one or more jumps of the vector lead. -/
theorem ShortCycles.of_map (h : ShortCycles P) {φ : Code → Code}
    (hpull : ∀ {l rest'}, after P' l = some rest' → ∃ l₀ rest, after P l₀ = some rest ∧
      skipLabels rest' = φ (skipLabels rest))
    (hstep : ∀ p ∈ positions P, ∃ k, follow P' (φ p) = φ ((follow P)^[k + 1] p)) :
    ShortCycles P' := by
  refine ShortOn.of_rel (R := fun p a => a = φ p) h (finite_positions P) (fun p => follow_mem)
    (fun ha hb => ha.trans hb.symm) (fun p hp a ha => ?_) fun a ha => ?_
  · obtain ⟨k, hk⟩ := hstep p hp
    exact ⟨k, by rw [ha, hk]⟩
  · obtain ⟨l, rest', hl, rfl⟩ := ha
    obtain ⟨l₀, rest, hrest, heq⟩ := hpull hl
    exact ⟨_, mem_positions hrest, heq⟩

theorem ShortCycles.of_image (h : ShortCycles P) (hP : Linked P) {φ : Code → Code}
    (hafter : ∀ {l rest'}, after P' l = some rest' → ∃ rest, after P l = some rest ∧
      rest' = φ rest)
    (htarget : ∀ {short test target rest}, .jmp short test target ∈ P →
      after P target = some rest → after P' target = some (φ rest))
    (hskip : ∀ code, skipLabels (φ code) = φ (skipLabels code))
    (huncond : ∀ short target code, ∃ code', φ (.jmp short .t target :: code) =
      .jmp short .t target :: code')
    (hother : ∀ code, startsUncond (skipLabels code) = false →
      startsUncond (skipLabels (φ code)) = false) : ShortCycles P' := by
  refine h.of_map (φ := φ) (fun {l rest'} hl => ?_) fun p hp => ⟨0, ?_⟩
  · obtain ⟨rest, hrest, rfl⟩ := hafter hl
    exact ⟨l, rest, hrest, hskip rest⟩
  · show follow P' (φ p) = φ (follow P p)
    by_cases hu : startsUncond p = true
    · obtain ⟨short, target, code, rfl⟩ := exists_of_uncond hu
      have hs := suffix_of_mem_positions hp
      obtain ⟨rest, hrest⟩ := hP.exists_after hs
      obtain ⟨code', hcode'⟩ := huncond short target code
      rw [hcode', follow_jmp hrest, follow_jmp (htarget (hs.subset List.mem_cons_self) hrest),
        hskip]
    · have hp' := skipLabels_of_mem_positions hp
      have hu' := hother p (by rw [hp']; simpa using hu)
      rw [hskip, hp'] at hu'
      rw [follow_of_not_uncond (P := P) (by simpa using hu), follow_of_not_uncond hu']

theorem averOk_cons {i : Instruction} : AverOk (i :: code) ↔
    (∀ {short test target}, i = .jmp short (.cond test) target → negatedTest test = none →
      startsUncond (skipLabels code) = false) ∧ AverOk code := by
  cases i with
  | jmp short test target => cases test <;> simp [AverOk]
  | _ => simp [AverOk]

theorem startsUncond_cons (i : Instruction) (code code' : Code) :
    startsUncond (i :: code) = startsUncond (i :: code') := by
  cases i with
  | jmp short test target => cases test <;> rfl
  | _ => rfl

/-- A map of points that keeps their first instructions keeps unconditional jumps at points. -/
theorem startsUncond_of_head {φ : Code → Code} (hnil : φ [] = [])
    (hskip : skipLabels (φ code) = φ (skipLabels code))
    (hhead : ∀ {i : Instruction} (_ : i.labelSymbol = none) rest,
      ∃ rest', φ (i :: rest) = i :: rest') :
    startsUncond (skipLabels (φ code)) = startsUncond (skipLabels code) := by
  rw [hskip]
  rcases skipLabels_cases code with h | ⟨i, rest, h, hi⟩
  · rw [h, hnil]
  · obtain ⟨rest', h'⟩ := hhead hi rest
    rw [h, h']
    exact startsUncond_cons _ _ _

/-- What the loop needs of a vector. -/
structure Good (P : Code) : Prop where
  linked : Linked P
  short : ShortCycles P
  aver : AverOk P

/-- A pass that has changed a vector has made it shorter. -/
structure Shrinks (P : Code) (result : Code × Bool) : Prop where
  shorter : result.2 = true → result.1.length < P.length
  same : result.2 = false → result.1 = P

structure Keeps (P : Code) (result : Code × Bool) : Prop extends Shrinks P result where
  good : Good result.1

theorem shrinks_finish {marks : List (Option Instruction)} (hlen : marks.length = P.length)
    (hsame : marks.reduceOption.length = P.length → marks.reduceOption = P) :
    Shrinks P (finish marks) where
  shorter h := by
    show marks.reduceOption.length < P.length
    rw [← hlen, List.reduceOption_length_lt_iff]
    simpa [finish, List.any_eq_true, Option.isNone_iff_eq_none] using h
  same h := by
    refine hsame ?_
    rw [← hlen, List.reduceOption_length_eq_iff]
    intro x hx
    rw [← Option.not_isNone, Bool.not_eq_true', ← Bool.not_eq_true]
    intro hnone
    rw [finish, ← Bool.not_eq_true] at h
    exact h (List.any_eq_true.mpr ⟨x, hx, hnone⟩)

theorem shrinks_of_sublist {marks : List (Option Instruction)} (hlen : marks.length = P.length)
    (hsub : marks.reduceOption.Sublist P) : Shrinks P (finish marks) :=
  shrinks_finish hlen fun h => hsub.eq_of_length h

/-! ## Unreachable code -/

theorem skipLabels_live (code : Code) :
    skipLabels (live false code) = live false (skipLabels code) := by
  induction code with
  | nil => rfl
  | cons i code ih =>
    rcases i.label_or_none with ⟨symbol, external, rfl⟩ | hi
    · rw [live_label, skipLabels_label, skipLabels_label, ih]
    · obtain ⟨dead, h⟩ := live_false_of_none hi code
      rw [skipLabels_of_none hi, h, skipLabels_of_none hi]

theorem startsUncond_live (code : Code) :
    startsUncond (skipLabels (live false code)) = startsUncond (skipLabels code) :=
  startsUncond_of_head rfl (skipLabels_live code) fun hi rest =>
    (live_false_of_none hi rest).imp' (live · rest) fun _ h => h

theorem averOk_live (dead : Bool) (h : AverOk code) : AverOk (live dead code) := by
  induction code generalizing dead with
  | nil => exact h
  | cons i code ih =>
    rw [averOk_cons] at h
    rcases i.label_or_none with ⟨symbol, external, rfl⟩ | hi
    · rw [live_label]
      exact ih false h.2
    · cases dead with
      | true =>
        rw [live_true_of_none hi]
        exact ih true h.2
      | false =>
        obtain ⟨dead, hdead⟩ := live_false_of_none hi code
        rw [hdead, averOk_cons]
        refine ⟨fun {short test target} heq hno => ?_, ih dead h.2⟩
        subst heq
        rw [live_jmp] at hdead
        injection hdead with _ hdead
        rw [← hdead]
        exact (startsUncond_live code).trans (h.1 rfl hno)

theorem length_scan1 (dead : Bool) (code : Code) : (scan1 dead code).length = code.length := by
  fun_induction scan1 dead code <;> simp_all

theorem shrinks_1 (P : Code) : Shrinks P (optimizeIr2_1 P) :=
  shrinks_of_sublist (length_scan1 false P) (live_sublist false P)

/-- **`optimize-ir2-1`.** -/
theorem keeps_1 (hP : Good P) : Keeps P (optimizeIr2_1 P) where
  good := {
    linked := live_linked hP.linked
    short := by
      refine hP.short.of_image hP.linked (φ := live false) (fun {l rest'} hl => ?_)
        (fun {_ _ target rest} _ hrest => ?_) skipLabels_live
        (fun short target code => ⟨_, live_jmp short .t target code⟩)
        fun code h => (startsUncond_live code).trans h
      · have hl : after (live false P) l = some rest' := hl
        rw [after_live, Option.map_eq_some_iff] at hl
        obtain ⟨rest, hrest, rfl⟩ := hl
        exact ⟨rest, hrest, rfl⟩
      · show after (live false P) target = _
        rw [after_live, hrest]
        rfl
    aver := averOk_live false hP.aver }
  toShrinks := shrinks_1 P

/-! ## Unused labels -/

theorem skipLabels_withUsed {used : Label → Bool} (code : Code) :
    skipLabels (withUsed used code) = withUsed used (skipLabels code) := by
  induction code with
  | nil => rfl
  | cons i code ih =>
    rcases i.label_or_none with ⟨symbol, external, rfl⟩ | hi
    · rw [withUsed_label, skipLabels_label, ← ih]
      split_ifs
      · rw [skipLabels_label]
      · rfl
    · rw [skipLabels_of_none hi, withUsed_of_none hi, skipLabels_of_none hi]

theorem startsUncond_withUsed {used : Label → Bool} (code : Code) :
    startsUncond (skipLabels (withUsed used code)) = startsUncond (skipLabels code) :=
  startsUncond_of_head rfl (skipLabels_withUsed code) fun hi rest => ⟨_, withUsed_of_none hi rest⟩

theorem averOk_withUsed {used : Label → Bool} (h : AverOk code) : AverOk (withUsed used code) := by
  induction code with
  | nil => exact h
  | cons i code ih =>
    rw [averOk_cons] at h
    rcases i.label_or_none with ⟨symbol, external, rfl⟩ | hi
    · rw [withUsed_label]
      split_ifs
      · exact ih h.2
      · exact ih h.2
    · rw [withUsed_of_none hi, averOk_cons]
      exact ⟨fun heq hno => (startsUncond_withUsed code).trans (h.1 heq hno), ih h.2⟩

theorem exists_of_after_withUsed {used : Label → Bool} (hnodup : (labels P).Nodup) {l : Label}
    {rest' : Code} (hl : after (withUsed used P) l = some rest') :
    ∃ rest, after P l = some rest ∧ rest' = withUsed used rest := by
  induction P with
  | nil => cases hl
  | cons i P ih =>
    rcases i.label_or_none with ⟨symbol, external, rfl⟩ | hi
    · rw [labels_cons_label, List.nodup_cons] at hnodup
      rw [withUsed_label] at hl
      have hmem : l ∈ labels (withUsed used P) → l ∈ labels P :=
        fun h => ((withUsed_sublist P).filterMap _).subset h
      rw [after_cons_label]
      split_ifs at hl with hkeep
      · rw [after_cons_label] at hl
        split_ifs at hl ⊢ with hsym
        · cases hl
          exact ⟨P, rfl, rfl⟩
        · exact ih hnodup.2 hl
      · rw [if_neg]
        · exact ih hnodup.2 hl
        · rintro rfl
          exact hnodup.1 (hmem (mem_labels_of_after hl))
    · rw [withUsed_of_none hi, after_cons_of_none hi] at hl
      rw [labels_cons_of_none hi] at hnodup
      rw [after_cons_of_none hi]
      exact ih hnodup hl

theorem shrinks_2 (P : Code) : Shrinks P (optimizeIr2_2 P) :=
  shrinks_of_sublist (by simp) (withUsed_sublist P)

/-- **`optimize-ir2-2`.** -/
theorem keeps_2 (hP : Good P) : Keeps P (optimizeIr2_2 P) where
  good := {
    linked := withUsed_linked hP.linked
    short := by
      refine hP.short.of_image hP.linked (φ := withUsed (usedIn P))
        (fun hl => exists_of_after_withUsed hP.linked.nodup hl)
        (fun {_ _ target rest} hmem hrest => ?_) skipLabels_withUsed
        (fun short target code => ⟨_, withUsed_of_none rfl code⟩)
        fun code h => (startsUncond_withUsed code).trans h
      show after (withUsed (usedIn P) P) target = _
      rw [after_withUsed (usedIn_of_mem hmem), hrest]
      rfl
    aver := averOk_withUsed hP.aver }
  toShrinks := shrinks_2 P

/-! ## Jumps to the next instruction -/

theorem length_scan4 (i : Instruction) (code : Code) :
    (scan4 i code).length = code.length + 1 := by
  fun_induction scan4 i code <;> simp_all

theorem withoutNext_label (symbol : Label) (external : Bool) (code : Code) :
    withoutNext (.label symbol external :: code) = .label symbol external :: withoutNext code :=
  withoutNext_of_ne (by simp) code

theorem skipLabels_withoutNext (code : Code) :
    skipLabels (withoutNext code) = skipLabels (withoutNext (skipLabels code)) := by
  induction code with
  | nil => rfl
  | cons i code ih =>
    rcases i.label_or_none with ⟨symbol, external, rfl⟩ | hi
    · rw [withoutNext_label, skipLabels_label, skipLabels_label, ih]
    · rw [skipLabels_of_none hi]

theorem withoutNext_of_not_uncond (hcode : skipLabels code = code)
    (h : startsUncond code = false) : startsUncond (skipLabels (withoutNext code)) = false := by
  rcases skipLabels_cases code with hnil | ⟨i, rest, hcons, hi⟩
  · rw [← hcode, hnil]
    rfl
  · rw [hcode] at hcons
    subst hcons
    have hne : ∀ short symbol, i ≠ .jmp short .t symbol := by
      rintro short symbol rfl
      simp [startsUncond] at h
    rw [withoutNext_of_ne hne, skipLabels_of_none hi, startsUncond_cons i _ rest]
    exact h

theorem averOk_withoutNext (h : AverOk code) : AverOk (withoutNext code) := by
  induction code with
  | nil => exact h
  | cons i code ih =>
    rw [averOk_cons] at h
    rcases withoutNext_cons i code with hkeep | ⟨_, _, _, _, _, _, hdrop⟩
    · rw [hkeep, averOk_cons]
      refine ⟨fun heq hno => ?_, ih h.2⟩
      rw [skipLabels_withoutNext]
      exact withoutNext_of_not_uncond (skipLabels_skipLabels code) (h.1 heq hno)
    · rw [hdrop]
      exact ih h.2

/-- A step of the result. Where the jump of a point is deleted, the next point has the same
image. -/
theorem follow_withoutNext (hP : Linked P) (n : ℕ) : ∀ p ∈ positions P, p.length = n →
    ∃ k, follow (withoutNext P) (skipLabels (withoutNext p)) =
      skipLabels (withoutNext ((follow P)^[k + 1] p)) := by
  induction n using Nat.strong_induction_on with
  | _ n ih =>
    intro p hp hn
    by_cases hu : startsUncond p = true
    · obtain ⟨short, target, code, rfl⟩ := exists_of_uncond hu
      have hs := suffix_of_mem_positions hp
      obtain ⟨rest, hrest⟩ := hP.exists_after hs
      have hnext : follow P (.jmp short .t target :: code) = skipLabels rest := follow_jmp hrest _
      rcases withoutNext_cons (.jmp short .t target) code with
        hkeep | ⟨_, symbol, external, rest', hjmp, rfl, hdrop⟩
      · have hrest' : after (withoutNext P) target = some (withoutNext rest) := by
          rw [after_withoutNext, hrest]
          rfl
        refine ⟨0, ?_⟩
        rw [hkeep, skipLabels_of_none rfl, follow_jmp hrest', skipLabels_withoutNext, ← hnext]
        rfl
      · cases hjmp
        have hrest' := after_eq_some hP.nodup (suffix_tail hs)
        rw [hrest] at hrest'
        cases hrest'
        have himage : skipLabels (withoutNext (.jmp short .t target ::
            .label target external :: rest)) = skipLabels (withoutNext (skipLabels rest)) := by
          rw [hdrop, withoutNext_label, skipLabels_label, skipLabels_withoutNext]
        have hlen := (skipLabels_suffix rest).length_le
        simp only [List.length_cons] at hn
        obtain ⟨k, hk⟩ := ih _ (by omega) (skipLabels rest) (mem_positions hrest) rfl
        refine ⟨k + 1, ?_⟩
        rw [himage, hk, Function.iterate_succ_apply _ (k + 1), hnext]
    · have hu : startsUncond p = false := by simpa using hu
      have hstay := withoutNext_of_not_uncond (skipLabels_of_mem_positions hp) hu
      refine ⟨0, ?_⟩
      rw [follow_of_not_uncond hstay, Function.iterate_one, follow_of_not_uncond hu]

theorem shrinks_4 (P : Code) : Shrinks P (optimizeIr2_4 P) := by
  cases P with
  | nil => exact ⟨nofun, fun _ => rfl⟩
  | cons i code =>
    exact shrinks_of_sublist (length_scan4 i code) (withoutNext_sublist (i :: code))

/-- **`optimize-ir2-4`.** -/
theorem keeps_4 (hP : Good P) : Keeps P (optimizeIr2_4 P) where
  good := by
    rw [optimizeIr2_4_eq]
    refine ⟨withoutNext_linked hP.linked, ?_, averOk_withoutNext hP.aver⟩
    refine hP.short.of_map (φ := fun p => skipLabels (withoutNext p)) (fun {l rest'} hl => ?_)
      fun p hp => follow_withoutNext hP.linked p.length p hp rfl
    rw [after_withoutNext, Option.map_eq_some_iff] at hl
    obtain ⟨rest, hrest, rfl⟩ := hl
    exact ⟨l, rest, hrest, skipLabels_withoutNext rest⟩
  toShrinks := shrinks_4 P

/-! ## Changed targets -/

variable {g : Label → Label} {f : Instruction → Instruction}

theorem skipLabels_map (hf : Renames g f) (code : Code) :
    skipLabels (code.map f) = (skipLabels code).map f := by
  induction code with
  | nil => rfl
  | cons i code ih =>
    rcases i.label_or_none with ⟨symbol, external, rfl⟩ | hi
    · rw [List.map_cons, hf.label, skipLabels_label, skipLabels_label, ih]
    · rw [List.map_cons, skipLabels_of_none (by rw [hf.labelSymbol, hi]), skipLabels_of_none hi,
        List.map_cons]

theorem startsUncond_map (hf : Renames g f) (code : Code) :
    startsUncond (code.map f) = startsUncond code := by
  cases code with
  | nil => rfl
  | cons i code =>
    rw [List.map_cons]
    rcases i.kinds with ⟨symbol, external, rfl⟩ | ⟨short, test, target, rfl⟩ | rfl | hi
    · rw [hf.label]
      rfl
    · rw [hf.jmp]
      cases test <;> rfl
    · rw [hf.exit]
      rfl
    · have hi' := hf.straight hi
      cases i <;> cases hfi : f _ <;> simp_all [Instruction.straight, startsUncond]

theorem averOk_map (hf : Renames g f) (h : AverOk code) : AverOk (code.map f) := by
  induction code with
  | nil => exact h
  | cons i code ih =>
    rw [averOk_cons] at h
    rw [List.map_cons, averOk_cons]
    refine ⟨fun {short test target} heq hno => ?_, ih h.2⟩
    rw [skipLabels_map hf, startsUncond_map hf]
    have hmem : .jmp short (.cond test) target ∈ [i].map f := by simp [heq]
    obtain ⟨target', -, hi⟩ := hf.exists_jmp hmem
    exact h.1 (List.mem_singleton.mp hi).symm hno

theorem follow_threaded {target : Label} (h : after P (threaded P target) = some rest)
    (short : Bool) (code : Code) :
    follow (P.map (retarget (threaded P)))
      ((.jmp short .t target :: code).map (retarget (threaded P))) =
        (skipLabels rest).map (retarget (threaded P)) := by
  have hf := renames_retarget (threaded P)
  rw [← skipLabels_map hf]
  exact follow_jmp (by rw [hf.after_map, h]; rfl) _

/-- **`optimize-ir2-3`** keeps a vector good. -/
theorem good_3 (hP : Good P) : Good (P.map (retarget (threaded P))) where
  linked := threaded_linked hP.linked
  aver := averOk_map (renames_retarget _) hP.aver
  short := by
    have hf := renames_retarget (threaded P)
    refine hP.short.of_map (φ := List.map (retarget (threaded P))) (fun {l rest'} hl => ?_)
      fun p hp => ?_
    · rw [hf.after_map, Option.map_eq_some_iff] at hl
      obtain ⟨rest, hrest, rfl⟩ := hl
      exact ⟨l, rest, hrest, skipLabels_map hf rest⟩
    · by_cases hu : startsUncond p = true
      · obtain ⟨short, target, code, rfl⟩ := exists_of_uncond hu
        have hs := suffix_of_mem_positions hp
        have hmem := threaded_mem hP.linked (hs.subset List.mem_cons_self)
        obtain ⟨rest, hrest⟩ := exists_after hmem
        rw [follow_threaded hrest]
        rcases threaded_cases hP.linked.nodup target with heq | ⟨short', rest', hjmp⟩
        · rw [heq] at hrest
          exact ⟨0, by rw [Function.iterate_one, follow_jmp hrest]⟩
        · refine ⟨1, ?_⟩
          rw [Function.iterate_succ_apply, follow_jmp hjmp, Function.iterate_one,
            skipLabels_of_none rfl, follow_jmp hrest]
      · have hu : startsUncond p = false := by simpa using hu
        refine ⟨0, ?_⟩
        rw [follow_of_not_uncond (by rw [startsUncond_map hf, hu]), Function.iterate_one,
          follow_of_not_uncond hu]

/-! ## Adjacent labels -/

theorem length_scan1b (i : Option Instruction) (code : Code) (ht : Referrals) :
    (scan1b i code ht).1.length = code.length + 1 := by
  fun_induction scan1b i code ht <;> simp_all

theorem skipLabels_merge (prev : Bool) (code : Code) :
    skipLabels (merge prev code) = merge false (skipLabels code) := by
  induction code generalizing prev with
  | nil => cases prev <;> rfl
  | cons i code ih =>
    rcases i.label_or_none with ⟨symbol, external, rfl⟩ | hi
    · rw [skipLabels_label]
      cases prev with
      | true => exact ih false
      | false =>
        rw [merge, skipLabels_label]
        exact ih true
    · rw [merge_of_none hi, skipLabels_of_none hi, skipLabels_of_none hi, merge_of_none hi]

theorem startsUncond_merge (prev : Bool) (code : Code) :
    startsUncond (skipLabels (merge prev code)) = startsUncond (skipLabels code) := by
  rw [skipLabels_merge, ← skipLabels_skipLabels code, ← skipLabels_merge false]
  exact startsUncond_of_head rfl (skipLabels_merge false _) fun hi rest =>
    ⟨_, merge_of_none hi false rest⟩

theorem averOk_merge (prev : Bool) (h : AverOk code) : AverOk (merge prev code) := by
  induction code generalizing prev with
  | nil => cases prev <;> exact h
  | cons i code ih =>
    rw [averOk_cons] at h
    rcases i.label_or_none with ⟨symbol, external, rfl⟩ | hi
    · cases prev with
      | true => exact ih false h.2
      | false => exact ih true h.2
    · rw [merge_of_none hi, averOk_cons]
      exact ⟨fun heq hno => (startsUncond_merge false code).trans (h.1 heq hno), ih false h.2⟩

theorem exists_of_after_merge (prev : Bool) (hnodup : (labels P).Nodup) {l : Label}
    {rest' : Code} (hl : after (merge prev P) l = some rest') :
    ∃ rest, after P l = some rest ∧ rest' = merge true rest := by
  induction P generalizing prev with
  | nil => cases prev <;> cases hl
  | cons i P ih =>
    rcases i.label_or_none with ⟨symbol, external, rfl⟩ | hi
    · rw [labels_cons_label, List.nodup_cons] at hnodup
      rw [after_cons_label]
      cases prev with
      | true =>
        rw [merge] at hl
        rw [if_neg]
        · exact ih false hnodup.2 hl
        · rintro rfl
          exact hnodup.1 (((merge_sublist false P).filterMap _).subset (mem_labels_of_after hl))
      | false =>
        rw [merge, after_cons_label] at hl
        split_ifs at hl ⊢ with hsym
        · cases hl
          exact ⟨P, rfl, rfl⟩
        · exact ih true hnodup.2 hl
    · rw [merge_of_none hi, after_cons_of_none hi] at hl
      rw [labels_cons_of_none hi] at hnodup
      rw [after_cons_of_none hi]
      exact ih false hnodup hl

theorem good_merged (hP : Good P) (hf : Renames (merged P) f) : Good ((merge false P).map f) where
  linked := merged_linked hP.linked hf
  aver := averOk_map hf (averOk_merge false hP.aver)
  short := by
    have himage : ∀ prev code, skipLabels ((merge prev code).map f) =
        (merge false (skipLabels code)).map f := by
      intro prev code
      rw [skipLabels_map hf, skipLabels_merge]
    refine hP.short.of_map (φ := fun p => (merge false p).map f) (fun {l rest'} hl => ?_)
      fun p hp => ⟨0, ?_⟩
    · rw [hf.after_map, Option.map_eq_some_iff] at hl
      obtain ⟨code, hcode, rfl⟩ := hl
      obtain ⟨rest, hrest, rfl⟩ := exists_of_after_merge false hP.linked.nodup hcode
      exact ⟨l, rest, hrest, himage true rest⟩
    · show follow ((merge false P).map f) ((merge false p).map f) = (merge false (follow P p)).map f
      by_cases hu : startsUncond p = true
      · obtain ⟨short, target, code, rfl⟩ := exists_of_uncond hu
        obtain ⟨rest, hrest⟩ := hP.linked.exists_after (suffix_of_mem_positions hp)
        obtain ⟨prev, hrest'⟩ := after_merged hP.linked.nodup hrest
        have htarget : after ((merge false P).map f) (merged P target) =
            some ((merge prev rest).map f) := by
          rw [hf.after_map, hrest']
          rfl
        rw [merge_of_none rfl, List.map_cons, hf.jmp, follow_jmp htarget, himage, follow_jmp hrest]
      · have hu : startsUncond p = false := by simpa using hu
        have hu' : startsUncond ((merge false p).map f) = false := by
          rw [startsUncond_map hf, ← skipLabels_of_mem_positions hp, ← skipLabels_merge false,
            startsUncond_merge, skipLabels_of_mem_positions hp, hu]
        rw [follow_of_not_uncond hu, follow_of_not_uncond hu']

theorem shrinks_1b (P : Code) : Shrinks P (optimizeIr2_1b P) := by
  cases P with
  | nil => exact ⟨fun h => absurd h Bool.false_ne_true, fun _ => rfl⟩
  | cons i code =>
    have hsub : (scan1b (some i) code fun _ => none).1.reduceOption.Sublist (i :: code) := by
      rw [reduceOption_scan1b]
      exact (merge_sublist _ code).cons_cons i
    have h := shrinks_of_sublist (length_scan1b (some i) code _) hsub
    simp only [optimizeIr2_1b]
    by_cases hchanged : (finish (scan1b (some i) code fun _ => none).1).2 = true
    · rw [if_pos hchanged]
      exact ⟨fun _ => by simpa using h.shorter hchanged,
        fun h => absurd h.symm Bool.false_ne_true⟩
    · rw [if_neg hchanged]
      exact ⟨fun h => absurd h Bool.false_ne_true, fun _ => rfl⟩

/-- **`optimize-ir2-1b`.** -/
theorem keeps_1b (hP : Good P) : Keeps P (optimizeIr2_1b P) where
  toShrinks := shrinks_1b P
  good := by
    rcases optimizeIr2_1b_eq P with h | h
    · rw [h]
      exact hP
    · rw [h]
      exact good_merged hP (renames_refer1b P)

/-! ## A jump over a jump -/

theorem Inverted.unique {code code₁ code₂ : Code} (h₁ : Inverted code code₁)
    (h₂ : Inverted code code₂) : code₁ = code₂ := by
  induction h₁ generalizing code₂ with
  | nil =>
    cases h₂
    rfl
  | cons hno _ ih =>
    cases h₂ with
    | cons _ h₂ => rw [ih h₂]
    | invert => exact absurd ⟨_, _, _, _, _, _, _, rfl⟩ hno
  | invert hneg _ ih =>
    cases h₂ with
    | cons hno _ => exact absurd ⟨_, _, _, _, _, _, _, rfl⟩ hno
    | invert hneg' h₂ =>
      rw [hneg] at hneg'
      cases hneg'
      rw [ih h₂]

theorem Inverted.skipLabels {code code' : Code} (h : Inverted code code') :
    Inverted (skipLabels code) (IR2.skipLabels code') := by
  induction h with
  | nil => exact .nil
  | @cons i code code' hno h ih =>
    rcases i.label_or_none with ⟨symbol, external, rfl⟩ | hi
    · rw [skipLabels_label, skipLabels_label]
      exact ih
    · rw [skipLabels_of_none hi, skipLabels_of_none hi]
      exact .cons hno h
  | invert hneg h _ =>
    rw [skipLabels_of_none rfl, skipLabels_of_none rfl]
    exact .invert hneg h

theorem Inverted.startsUncond {code code' : Code} (h : Inverted code code') :
    startsUncond code' = startsUncond code := by
  cases h with
  | nil => rfl
  | cons _ _ => exact startsUncond_cons _ _ _
  | invert _ _ => rfl

theorem Inverted.averOk {code code' : Code} (h : Inverted code code') (hcode : AverOk code) :
    AverOk code' := by
  induction h with
  | nil => exact hcode
  | @cons i code code' hno h ih =>
    rw [averOk_cons] at hcode ⊢
    refine ⟨fun heq hneg => ?_, ih hcode.2⟩
    rw [h.skipLabels.startsUncond]
    exact hcode.1 heq hneg
  | @invert short₁ short₂ external test negated target symbol code code' hneg h ih =>
    have hsome := negatedTest_isSome hneg
    refine ⟨fun hno => ?_, ih hcode.2⟩
    rw [hno] at hsome
    cases hsome

theorem Inverted.length {code code' : Code} (h : Inverted code code') :
    code'.length ≤ code.length ∧ (code'.length = code.length → code' = code) := by
  induction h with
  | nil => exact ⟨le_rfl, fun _ => rfl⟩
  | cons _ _ ih =>
    refine ⟨Nat.succ_le_succ ih.1, fun heq => ?_⟩
    rw [ih.2 (Nat.succ_injective heq)]
  | invert _ _ ih =>
    simp only [List.length_cons]
    exact ⟨by omega, fun heq => by omega⟩

theorem Inverted.shortCycles {P' : Code} (h : Inverted P P') (hP : Good P) : ShortCycles P' := by
  refine ShortOn.of_rel (R := Inverted) hP.short (finite_positions P) (fun p => follow_mem)
    (fun h₁ h₂ => h₁.unique h₂) (fun p hp a ha => ⟨0, ?_⟩) fun a ha => ?_
  · rw [Function.iterate_one]
    by_cases hu : IR2.startsUncond p = true
    · obtain ⟨short, target, code, rfl⟩ := exists_of_uncond hu
      obtain ⟨rest, hrest⟩ := hP.linked.exists_after (suffix_of_mem_positions hp)
      obtain ⟨rest', hrest', hr⟩ := h.after hrest
      cases ha with
      | cons _ _ =>
        rw [follow_jmp hrest, follow_jmp hrest']
        exact hr.skipLabels
    · have hu : IR2.startsUncond p = false := by simpa using hu
      rw [follow_of_not_uncond hu, follow_of_not_uncond (ha.startsUncond.trans hu)]
      exact ha
  · obtain ⟨l, rest', hrest', rfl⟩ := ha
    have hmem := mem_labels_of_after hrest'
    rw [h.labels] at hmem
    obtain ⟨rest, hrest⟩ := exists_after hmem
    obtain ⟨rest'', hrest'', hr⟩ := h.after hrest
    rw [hrest'] at hrest''
    cases hrest''
    exact ⟨_, mem_positions hrest, hr.skipLabels⟩

theorem length_scan1c {i : Instruction} {marks : List (Option Instruction)}
    (h : scan1c i code = some marks) : marks.length = code.length + 1 := by
  fun_induction scan1c i code generalizing marks <;>
    simp only [Option.bind_eq_bind, Option.bind_eq_some_iff, Option.pure_def,
      Option.some.injEq] at h <;> grind

/-- Without a test that has no negation in front of a jump, no `aver` fails. -/
theorem scan1c_of_averOk {i : Instruction} (h : AverOk (i :: code)) :
    ∃ marks, scan1c i code = some marks := by
  fun_induction scan1c i code with
  | case1 i => exact ⟨_, rfl⟩
  | case2 i j => exact ⟨_, rfl⟩
  | case3 short₁ test short₂ target₂ symbol external code ih =>
    rw [averOk_cons] at h
    cases hneg : negatedTest test with
    | none => cases h.1 rfl hneg
    | some negated =>
      have hsome := negatedTest_isSome hneg
      obtain ⟨marks, hmarks⟩ := ih negated ⟨fun hno => by simp [hno] at hsome, h.2⟩
      exact ⟨none :: marks, by simp [hmarks]⟩
  | case4 short₁ test target₁ short₂ target₂ symbol external code hne ih =>
    obtain ⟨marks, hmarks⟩ := ih (averOk_cons.mp h).2
    exact ⟨_, by simp [hmarks]; rfl⟩
  | case5 i j k code hno ih =>
    obtain ⟨marks, hmarks⟩ := ih (averOk_cons.mp h).2
    exact ⟨_, by simp [hmarks]; rfl⟩

theorem of_optimizeIr2_1c {result : Code × Bool} (h : optimizeIr2_1c P = some result) :
    Inverted P result.1 ∧ Shrinks P result := by
  cases P with
  | nil =>
    cases h
    exact ⟨.nil, nofun, fun _ => rfl⟩
  | cons i code =>
    rw [optimizeIr2_1c, Option.map_eq_some_iff] at h
    obtain ⟨marks, hmarks, rfl⟩ := h
    have hinv := inverted_of_scan1c hmarks
    exact ⟨hinv, shrinks_finish (length_scan1c hmarks) hinv.length.2⟩

/-- **`optimize-ir2-1c`.** -/
theorem keeps_1c (hP : Good P) : ∃ result, optimizeIr2_1c P = some result ∧ Keeps P result := by
  obtain ⟨result, hresult⟩ : ∃ result, optimizeIr2_1c P = some result := by
    cases P with
    | nil => exact ⟨_, rfl⟩
    | cons i code =>
      obtain ⟨marks, hmarks⟩ := scan1c_of_averOk hP.aver
      exact ⟨finish marks, by rw [optimizeIr2_1c, hmarks]; rfl⟩
  obtain ⟨hinv, hshrinks⟩ := of_optimizeIr2_1c hresult
  exact ⟨result, hresult, hshrinks,
    hinv.linked hP.linked, hinv.shortCycles hP, hinv.averOk hP.aver⟩

end Xcl.IR2
