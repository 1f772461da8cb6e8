import Xcl.IR2.Terminate

/-!
# The optimisation loop preserves behaviour

* `Made.pass`, `Made.round`, **`optimizeIr2_preserves`**: passes, rounds and the loop.
-/

namespace Xcl.IR2

variable {P P' Q : Code}

/-- There is nothing that `optimize-ir2-5` and `optimize-ir2-8` look for. -/
structure Plain (P : Code) : Prop extends WellFormed P where
  noShifts : ∀ shift reg, .sar (.fixnum shift) reg ∉ P
  noLoads : ∀ reg, .moveImmediate .constant32Null reg ∉ P

/-- What the passes have made of `P` so far. -/
structure Made (P P' : Code) : Prop extends Plain P' where
  equivalent : Equivalent P P'

/-- A pass adds jumps and labels only. -/
theorem Made.pass (h : Made P P') (hpass : Preserves P' Q)
    (hsub : ∀ i : Instruction, i.straight = true → i ∈ Q → i ∈ P') : Made P Q where
  toWellFormed := hpass.wellFormed
  noShifts shift reg hmem := h.noShifts shift reg (hsub _ rfl hmem)
  noLoads reg hmem := h.noLoads reg (hsub _ rfl hmem)
  equivalent σ M s :=
    have h₁ := h.equivalent σ M s
    have h₂ := hpass.equivalent σ M s
    ⟨fun t => (h₁.emits t).trans (h₂.emits t), fun t o => (h₁.halts t o).trans (h₂.halts t o)⟩

theorem withShifts_of_plain (h : ∀ shift reg, .sar (.fixnum shift) reg ∉ P) : withShifts P = P := by
  induction P with
  | nil => rfl
  | cons i code ih =>
    rw [withShifts_of_ne fun shift reg hi => h shift reg (by simp [hi]),
      ih fun shift reg hmem => h shift reg (List.mem_cons_of_mem _ hmem)]

theorem withoutLoads_of_plain (h : ∀ reg, .moveImmediate .constant32Null reg ∉ P)
    (i j : Option Instruction) : withoutLoads i j P = P := by
  induction P generalizing i j with
  | nil => rfl
  | cons k code ih =>
    have hno : loadsNull i j k = false := by
      unfold loadsNull
      split
      · exact absurd List.mem_cons_self (h _)
      · rfl
    rw [withoutLoads_cons hno, ih fun reg hmem => h reg (List.mem_cons_of_mem _ hmem)]

theorem mem_of_retarget {g : Label → Label} {i : Instruction} (hi : i.straight = true)
    (hmem : i ∈ P.map (retarget g)) : i ∈ P := by
  obtain ⟨j, hj, rfl⟩ := List.mem_map.mp hmem
  cases j <;> first | exact hj | cases hi

theorem mem_of_1b (hP : WellFormed P) {i : Instruction} (hi : i.straight = true)
    (hmem : i ∈ (optimizeIr2_1b P).1) : i ∈ P := by
  rcases optimizeIr2_1b_eq P with h | h
  · rwa [h] at hmem
  · rw [h, refer1b_eq hP] at hmem
    exact (merge_sublist false P).subset (mem_of_retarget hi hmem)

theorem Made.round {changed : Bool} (h : Made P P') (hround : round P' = some (Q, changed)) :
    Made P Q := by
  simp only [IR2.round, Option.bind_eq_bind, Option.bind_eq_some_iff, Option.pure_def,
    Option.some.injEq, Prod.mk.injEq] at hround
  obtain ⟨⟨P₁c, _⟩, hc, hQ, -⟩ := hround
  have h₁ := h.pass (optimizeIr2_1_preserves h.toWellFormed) fun _ _ hmem =>
    (live_sublist false P').subset hmem
  have h₁b := h₁.pass (optimizeIr2_1b_preserves h₁.toWellFormed) fun _ => mem_of_1b h₁.toWellFormed
  obtain ⟨_, _, hc', hpass⟩ := optimizeIr2_1c_preserves h₁b.toWellFormed
  cases hc'.symm.trans hc
  have h₁c := h₁b.pass hpass fun _ => (of_optimizeIr2_1c hc).1.mem_of_straight
  have h₂ := h₁c.pass (optimizeIr2_2_preserves h₁c.toWellFormed) fun _ _ hmem =>
    (withUsed_sublist P₁c).subset hmem
  have h₃ := h₂.pass (optimizeIr2_3_preserves h₂.toWellFormed) fun _ hi hmem =>
    mem_of_retarget hi (optimizeIr2_3_eq _ ▸ hmem)
  have h₄ := h₃.pass (optimizeIr2_4_preserves h₃.toWellFormed) fun _ _ hmem =>
    (withoutNext_sublist _).subset (optimizeIr2_4_eq _ ▸ hmem)
  rw [optimizeIr2_8_eq, optimizeIr2_5_eq, withShifts_of_plain h₄.noShifts,
    withoutLoads_of_plain h₄.noLoads] at hQ
  exact hQ ▸ h₄

theorem Made.loop {n : ℕ} (h : Made P P') (hloop : optimizeIr2 n P' = some Q) : Made P Q := by
  induction n generalizing P' with
  | zero => cases hloop
  | succ n ih =>
    obtain ⟨⟨P₁, changed⟩, hround, -⟩ := Option.bind_eq_some_iff.mp hloop
    rw [optimizeIr2_succ hround] at hloop
    cases changed with
    | true => exact ih (h.round hround) hloop
    | false => exact Option.some.inj hloop ▸ h.round hround

/-- **The loop of `optimize-ir2` preserves behaviour**, however many rounds it takes. -/
theorem optimizeIr2_preserves (hP : Plain P) {n : ℕ} (h : optimizeIr2 n P = some P') :
    Preserves P P' := by
  have hstart : Made P P := ⟨hP, fun _ _ _ => ⟨fun _ => Iff.rfl, fun _ _ => Iff.rfl⟩⟩
  have hmade := hstart.loop h
  exact ⟨hmade.toWellFormed, hmade.equivalent⟩

/-- The jump over a jump and two of the three labels go. -/
theorem optimizeIr2_preserves_sampleLoop : Preserves sampleLoop
    [.label 0 false, .other 7, .jmp false (.cond .e) 0, .exit] :=
  optimizeIr2_preserves ⟨wellFormed_sampleLoop, by simp [sampleLoop], by simp [sampleLoop]⟩
    (n := 4) (by decide)

end Xcl.IR2
