import Mathlib.Tactic

/-!
# Structured code with jumps

The code of a structured language: instructions in a sequence, two ways that meet again, a label at
the end of a piece of code, and a sequence of labelled sections. A jump goes to a label around it.
`run` executes code with a bound on the depth of the execution, so that every finite part of an
execution is a run.

* `Code`, `Sections`: the code, over a type of instructions and a type of labels;
* `triple_seq`, `triple_branch`, `triple_label`, **`triple_sections`**: the rules.
-/

namespace Xcl.Structured

universe u v w

mutual

/-- Code over instructions `I` and labels `L`. -/
inductive Code (I : Type u) (L : Type v)
  | skip
  | instr (i : I)
  | seq (first second : Code I L)
  /-- A conditional jump decides which of the two is executed. -/
  | branch (first second : Code I L)
  | label (body : Code I L) (l : L)
  | sections (items : Sections I L)
  | jmp (l : L)

inductive Sections (I : Type u) (L : Type v)
  | nil
  | label (l : L) (rest : Sections I L)
  | code (c : Code I L) (rest : Sections I L)

end

/-- The effect of an instruction, and the test of a conditional jump. -/
structure Machine (I : Type u) (S : Type w) where
  exec : I → S → S
  test : S → Bool × S

/-- How control leaves a piece of code. -/
inductive Outcome (L : Type v)
  | normal
  | jump (l : L)
  | timeout

variable {I : Type u} {L : Type v} {S : Type w} [DecidableEq L]

def Sections.find (l : L) : Sections I L → Option (Sections I L)
  | .nil => none
  | .label l' rest => if l' = l then some rest else rest.find l
  | .code _ rest => rest.find l

section
attribute [local simp] Sections.find
end

mutual

/-- Code that is executed with a bound on its depth. -/
def run (m : Machine I S) : ℕ → Code I L → S → Outcome L × S
  | 0, _, s => (.timeout, s)
  | _ + 1, .skip, s => (.normal, s)
  | _ + 1, .instr i, s => (.normal, m.exec i s)
  | n + 1, .seq first second, s =>
    match run m n first s with
    | (.normal, s) => run m n second s
    | (.jump l, s) => (.jump l, s)
    | (.timeout, s) => (.timeout, s)
  | n + 1, .branch first second, s =>
    let (b, s) := m.test s
    if b then run m n first s else run m n second s
  | n + 1, .label body l, s =>
    match run m n body s with
    | (.normal, s) => (.normal, s)
    | (.jump l', s) => if l' = l then (.normal, s) else (.jump l', s)
    | (.timeout, s) => (.timeout, s)
  | n + 1, .sections items, s => runSections m n items items s
  | _ + 1, .jmp l, s => (.jump l, s)

/-- The sections `rest` of the sections `all`. -/
def runSections (m : Machine I S) : ℕ → Sections I L → Sections I L → S → Outcome L × S
  | 0, _, _, s => (.timeout, s)
  | _ + 1, _, .nil, s => (.normal, s)
  | n + 1, all, .label _ rest, s => runSections m n all rest s
  | n + 1, all, .code c rest, s =>
    match run m n c s with
    | (.normal, s) => runSections m n all rest s
    | (.jump l, s) =>
      match all.find l with
      | some target => runSections m n all target s
      | none => (.jump l, s)
    | (.timeout, s) => (.timeout, s)

end

section
attribute [local simp] run runSections
end

/-! ## Rules -/

section Triple

variable {m : Machine I S} {Inv P N M : S → Prop} {J : L → S → Prop}

/-- What holds when control leaves the code. -/
def Post (Inv N : S → Prop) (J : L → S → Prop) : Outcome L × S → Prop
  | (.normal, s) => Inv s ∧ N s
  | (.jump l, s) => Inv s ∧ J l s
  | (.timeout, s) => Inv s

/-- Every run of the code from a state with `P` keeps `Inv`; `N` holds at its end, and `J l` where
it jumps to `l`. -/
def Triple (m : Machine I S) (Inv P : S → Prop) (c : Code I L) (N : S → Prop)
    (J : L → S → Prop) : Prop :=
  ∀ n s, Inv s → P s → Post Inv N J (run m n c s)

theorem Triple.inv {c : Code I L} (h : Triple m Inv P c N J) (n : ℕ) {s : S} (hinv : Inv s)
    (hp : P s) : Inv (run m n c s).2 := by
  have hpost := h n s hinv hp
  generalize run m n c s = r at hpost ⊢
  obtain ⟨outcome, s'⟩ := r
  cases outcome with
  | normal => exact hpost.1
  | jump l => exact hpost.1
  | timeout => exact hpost

theorem Triple.normal {c : Code I L} (h : Triple m Inv P c N J) {n : ℕ} {s s' : S} (hinv : Inv s)
    (hp : P s) (hrun : run m n c s = (.normal, s')) : N s' := by
  have hpost := h n s hinv hp
  rw [hrun] at hpost
  exact hpost.2

theorem triple_skip : Triple m Inv P (.skip : Code I L) P J := by
  intro n s hinv hp
  cases n with
  | zero => exact hinv
  | succ n => exact ⟨hinv, hp⟩

theorem triple_instr {i : I} (h : ∀ s, Inv s → P s → Inv (m.exec i s) ∧ N (m.exec i s)) :
    Triple m Inv P (.instr i : Code I L) N J := by
  intro n s hinv hp
  cases n with
  | zero => exact hinv
  | succ n => exact h s hinv hp

theorem triple_jmp {l : L} : Triple m Inv (J l) (.jmp l : Code I L) N J := by
  intro n s hinv hp
  cases n with
  | zero => exact hinv
  | succ n => exact ⟨hinv, hp⟩

theorem Triple.mono {c : Code I L} {P' N' : S → Prop} {J' : L → S → Prop}
    (h : Triple m Inv P c N J) (hp : ∀ s, P' s → P s) (hn : ∀ s, N s → N' s)
    (hj : ∀ l s, J l s → J' l s) : Triple m Inv P' c N' J' := by
  intro n s hinv hp'
  have hrun := h n s hinv (hp s hp')
  unfold Post at hrun ⊢
  split at hrun
  · exact ⟨hrun.1, hn _ hrun.2⟩
  · exact ⟨hrun.1, hj _ _ hrun.2⟩
  · exact hrun

theorem triple_exists {α : Sort*} {c : Code I L} {P : α → S → Prop}
    (h : ∀ x, Triple m Inv (P x) c N J) : Triple m Inv (fun s => ∃ x, P x s) c N J := by
  rintro n s hinv ⟨x, hp⟩
  exact h x n s hinv hp

theorem triple_seq {first second : Code I L} (h₁ : Triple m Inv P first M J)
    (h₂ : Triple m Inv M second N J) : Triple m Inv P (.seq first second) N J := by
  intro n s hinv hp
  cases n with
  | zero => exact hinv
  | succ n =>
    have hrun := h₁ n s hinv hp
    rw [run]
    split <;> rename_i s' he <;> rw [he] at hrun
    · exact h₂ n s' hrun.1 hrun.2
    · exact hrun
    · exact hrun

theorem run_seq_normal {first second : Code I L} {n : ℕ} {s s' : S}
    (h : run m n (.seq first second) s = (.normal, s')) :
    ∃ k s₁, run m k first s = (.normal, s₁) ∧ run m k second s₁ = (.normal, s') := by
  cases n with
  | zero => cases h
  | succ n =>
    rw [run] at h
    split at h
    · rename_i s₁ he
      exact ⟨n, s₁, he, h⟩
    · cases h
    · cases h

theorem triple_branch {first second : Code I L}
    (htest : ∀ s, Inv s → P s → Inv (m.test s).2 ∧ M (m.test s).2)
    (h₁ : Triple m Inv M first N J) (h₂ : Triple m Inv M second N J) :
    Triple m Inv P (.branch first second) N J := by
  intro n s hinv hp
  cases n with
  | zero => exact hinv
  | succ n =>
    obtain ⟨hinv', hm⟩ := htest s hinv hp
    rw [run]
    simp only
    split
    · exact h₁ n _ hinv' hm
    · exact h₂ n _ hinv' hm

theorem triple_label {body : Code I L} {l : L}
    (h : Triple m Inv P body N fun l' s => if l' = l then N s else J l' s) :
    Triple m Inv P (.label body l) N J := by
  intro n s hinv hp
  cases n with
  | zero => exact hinv
  | succ n =>
    have hrun := h n s hinv hp
    rw [run]
    generalize run m n body s = r at hrun ⊢
    obtain ⟨o, s'⟩ := r
    cases o with
    | normal => exact hrun
    | timeout => exact hrun
    | jump l' =>
      obtain ⟨hinv', hj⟩ := hrun
      by_cases hl : l' = l
      · rw [if_pos hl] at hj
        simp only [if_pos hl]
        exact ⟨hinv', hj⟩
      · rw [if_neg hl] at hj
        simp only [if_neg hl]
        exact ⟨hinv', hj⟩

def Sections.labels : Sections I L → List L
  | .nil => []
  | .label l rest => l :: rest.labels
  | .code _ rest => rest.labels

section
attribute [local simp] Sections.labels
end

def Sections.All (p : Code I L → Prop) : Sections I L → Prop
  | .nil => True
  | .label _ rest => rest.All p
  | .code c rest => p c ∧ rest.All p

theorem Sections.all_find {p : Code I L → Prop} {l : L} :
    ∀ {items target : Sections I L}, items.All p → items.find l = some target → target.All p
  | .nil, _, _, hfind => by cases hfind
  | .label l' rest, target, h, hfind => by
    rw [Sections.find] at hfind
    split at hfind
    · cases hfind
      exact h
    · exact @Sections.all_find p l rest target h hfind
  | .code _ rest, target, h, hfind => @Sections.all_find p l rest target h.2 hfind

theorem Sections.find_isSome {l : L} :
    ∀ {items : Sections I L}, l ∈ items.labels ↔ (items.find l).isSome = true
  | .nil => by simp [Sections.labels, Sections.find]
  | .label l' rest => by
    rw [Sections.labels, Sections.find, List.mem_cons, Sections.find_isSome]
    by_cases hl : l' = l
    · simp [hl]
    · simp [hl, Ne.symm hl]
  | .code _ rest => by
    rw [Sections.labels, Sections.find, Sections.find_isSome]

theorem triple_sections {items : Sections I L}
    (h : items.All fun c => Triple m Inv P c P fun l s => if l ∈ items.labels then P s else J l s) :
    Triple m Inv P (.sections items) P J := by
  -- the sections that are left may be any of the items
  have hrest : ∀ n (rest : Sections I L) s,
      (rest.All fun c => Triple m Inv P c P fun l s => if l ∈ items.labels then P s else J l s) →
      Inv s → P s → Post Inv P J (runSections m n items rest s) := by
    intro n
    induction n with
    | zero => exact fun _ _ _ hinv _ => hinv
    | succ n ih =>
      intro rest s hall hinv hp
      cases rest with
      | nil => exact ⟨hinv, hp⟩
      | label l rest => exact ih rest s hall hinv hp
      | code c rest =>
        have hrun := hall.1 n s hinv hp
        rw [runSections]
        generalize run m n c s = r at hrun ⊢
        obtain ⟨o, s'⟩ := r
        cases o with
        | normal => exact ih rest s' hall.2 hrun.1 hrun.2
        | timeout => exact hrun
        | jump l =>
          obtain ⟨hinv', hj⟩ := hrun
          simp only
          cases hfind : items.find l with
          | some target =>
            have hl : l ∈ items.labels := Sections.find_isSome.mpr (by rw [hfind]; rfl)
            rw [if_pos hl] at hj
            exact ih target s' (Sections.all_find h hfind) hinv' hj
          | none =>
            have hl : l ∉ items.labels := fun hl => by
              have := Sections.find_isSome.mp hl
              rw [hfind] at this
              cases this
            rw [if_neg hl] at hj
            exact ⟨hinv', hj⟩
  intro n s hinv hp
  cases n with
  | zero => exact hinv
  | succ n => exact hrest n items s h hinv hp

omit [DecidableEq L] in
theorem Sections.All.mono {p q : Code I L → Prop} (hpq : ∀ c, p c → q c) :
    ∀ {items : Sections I L}, items.All p → items.All q
  | .nil, _ => trivial
  | .label _ rest, h => @Sections.All.mono p q hpq rest h
  | .code c _, h => ⟨hpq c h.1, Sections.All.mono hpq h.2⟩

/-! ## Frames -/

mutual

def Code.AllInstr (p : I → Prop) : Code I L → Prop
  | .skip => True
  | .instr i => p i
  | .seq first second => first.AllInstr p ∧ second.AllInstr p
  | .branch first second => first.AllInstr p ∧ second.AllInstr p
  | .label body _ => body.AllInstr p
  | .sections items => items.AllInstr p
  | .jmp _ => True

def Sections.AllInstr (p : I → Prop) : Sections I L → Prop
  | .nil => True
  | .label _ rest => rest.AllInstr p
  | .code c rest => c.AllInstr p ∧ rest.AllInstr p

end

omit [DecidableEq L] in
mutual

theorem Code.allInstr_of_forall {p : I → Prop} (h : ∀ i, p i) : ∀ c : Code I L, c.AllInstr p
  | .skip => trivial
  | .instr i => h i
  | .seq first second => ⟨first.allInstr_of_forall h, second.allInstr_of_forall h⟩
  | .branch first second => ⟨first.allInstr_of_forall h, second.allInstr_of_forall h⟩
  | .label body _ => body.allInstr_of_forall h
  | .sections items => items.allInstr_of_forall h
  | .jmp _ => trivial

theorem Sections.allInstr_of_forall {p : I → Prop} (h : ∀ i, p i) :
    ∀ items : Sections I L, items.AllInstr p
  | .nil => trivial
  | .label _ rest => rest.allInstr_of_forall h
  | .code c rest => ⟨c.allInstr_of_forall h, rest.allInstr_of_forall h⟩

end

mutual

theorem triple_of_allInstr {p : I → Prop} {Q : S → Prop}
    (hexec : ∀ i s, p i → Q s → Q (m.exec i s)) (htest : ∀ s, Q s → Q (m.test s).2) :
    ∀ (c : Code I L), c.AllInstr p →
      Triple m Q (fun _ => True) c (fun _ => True) (fun _ _ => True)
  | .skip, _ => triple_skip
  | .instr i, h => triple_instr fun s hq _ => ⟨hexec i s h hq, trivial⟩
  | .seq first second, h =>
    triple_seq (triple_of_allInstr hexec htest first h.1)
      (triple_of_allInstr hexec htest second h.2)
  | .branch first second, h =>
    triple_branch (fun s hq _ => ⟨htest s hq, trivial⟩)
      (triple_of_allInstr hexec htest first h.1) (triple_of_allInstr hexec htest second h.2)
  | .label body l, h => by
    apply triple_label
    simpa using triple_of_allInstr hexec htest body h
  | .sections items, h => by
    apply triple_sections
    simpa using sections_of_allInstr hexec htest items h
  | .jmp _, _ => triple_jmp (J := fun _ _ => True)

theorem sections_of_allInstr {p : I → Prop} {Q : S → Prop}
    (hexec : ∀ i s, p i → Q s → Q (m.exec i s)) (htest : ∀ s, Q s → Q (m.test s).2) :
    ∀ (items : Sections I L), items.AllInstr p →
      items.All fun c => Triple m Q (fun _ => True) c (fun _ => True) (fun _ _ => True)
  | .nil, _ => trivial
  | .label _ rest, h => sections_of_allInstr hexec htest rest h
  | .code c rest, h =>
    ⟨triple_of_allInstr hexec htest c h.1, sections_of_allInstr hexec htest rest h.2⟩

end

theorem run_keeps {Q : S → Prop} (hexec : ∀ i s, Q s → Q (m.exec i s))
    (htest : ∀ s, Q s → Q (m.test s).2) (n : ℕ) (c : Code I L) {s : S} (h : Q s) :
    Q (run m n c s).2 :=
  (triple_of_allInstr (fun i s _ => hexec i s) htest c
    (c.allInstr_of_forall fun _ => trivial)).inv n h trivial

/-- **The frame rule.** -/
theorem Triple.frame {c : Code I L} {Q : S → Prop} (h : Triple m Inv P c N J)
    (hq : Triple m Q (fun _ => True) c (fun _ => True) (fun _ _ => True)) :
    Triple m Inv (fun s => P s ∧ Q s) c (fun s => N s ∧ Q s) (fun l s => J l s ∧ Q s) := by
  rintro n s hinv ⟨hp, hqs⟩
  have h₁ := h n s hinv hp
  have h₂ := hq n s hqs trivial
  generalize run m n c s = r at h₁ h₂ ⊢
  obtain ⟨o, s'⟩ := r
  cases o with
  | normal => exact ⟨h₁.1, h₁.2, h₂.1⟩
  | jump l => exact ⟨h₁.1, h₁.2, h₂.1⟩
  | timeout => exact h₁

end Triple

end Xcl.Structured
