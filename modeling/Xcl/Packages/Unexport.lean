import Xcl.Packages.Meaning

/-!
# Unexporting a symbol

* `Status`, `State.findStatus`: `find-symbol` with its second value;
* **`unexports_iff`**: which accessible symbols are unexported. Only the symbols at home in the
  package are ever looked for in its own tables.
-/

namespace Xcl.Packages

/-- The second value of `find-symbol`. -/
inductive Status
  | internal
  | external
  | inherited
  deriving DecidableEq

/-- `Package::find_symbol` -/
def State.findStatus (s : State) (p : ℕ) (name : String) : Option (Symbol × Status) :=
  match (s.packages p).externalSymbols name with
  | some symbol => some (symbol, .external)
  | none =>
    match (s.packages p).internalSymbols name with
    | some symbol => some (symbol, .internal)
    | none => (s.inherited name (s.packages p).useList).map fun symbol => (symbol, .inherited)

def State.Exports (s : State) (p : ℕ) (symbol : Symbol) : Prop :=
  (s.packages p).externalSymbols symbol.name = some symbol

instance (s : State) (p : ℕ) (symbol : Symbol) : Decidable (s.Exports p symbol) :=
  inferInstanceAs (Decidable (_ = _))

/-- The symbol comes out of the external symbols of the package, and nothing else changes. -/
def Unexports (s : State) (p : ℕ) (symbol : Symbol) : Prop :=
  (s.unexportSymbol p symbol).1 = none ∧
    ∃ status ≠ Status.external,
      (s.unexportSymbol p symbol).2.findStatus p symbol.name = some (symbol, status)

section

variable {s : State} {p : ℕ} {symbol : Symbol}

theorem findStatus_map_fst (s : State) (p : ℕ) (name : String) :
    (s.findStatus p name).map Prod.fst = s.findSymbol p name := by
  unfold State.findStatus State.findSymbol State.present
  cases (s.packages p).externalSymbols name with
  | some sym => rfl
  | none =>
    cases (s.packages p).internalSymbols name with
    | some sym => rfl
    | none =>
      rw [Option.map_map]
      exact congrFun Option.map_id _

/-- An accessible symbol has the status `:EXTERNAL` exactly if it is external. -/
theorem exists_findStatus_iff (haccessible : s.findSymbol p symbol.name = some symbol) :
    (∃ status ≠ Status.external, s.findStatus p symbol.name = some (symbol, status)) ↔
      ¬s.Exports p symbol := by
  rw [← findStatus_map_fst] at haccessible
  obtain ⟨⟨sym, status⟩, hfind, rfl⟩ := Option.map_eq_some_iff.mp haccessible
  have hstatus : status = .external ↔ s.Exports p sym := by
    unfold State.findStatus at hfind
    unfold State.Exports
    cases hext : (s.packages p).externalSymbols sym.name with
    | some other =>
      simp only [hext, Option.some.injEq, Prod.mk.injEq] at hfind
      simp [hfind.1, hfind.2.symm]
    | none =>
      rw [hext] at hfind
      cases hint : (s.packages p).internalSymbols sym.name with
      | some other =>
        simp only [hint, Option.some.injEq, Prod.mk.injEq] at hfind
        simp [hfind.2.symm]
      | none =>
        simp only [hint, Option.map_eq_some_iff, Prod.mk.injEq] at hfind
        obtain ⟨_, -, -, rfl⟩ := hfind
        simp
  rw [hfind, ← hstatus]
  constructor
  · rintro ⟨other, hne, heq⟩ rfl
    exact hne (Prod.mk.inj (Option.some.inj heq)).2.symm
  · intro hne
    exact ⟨status, hne, rfl⟩

theorem findStatus_unexported (s : State) (p : ℕ) (symbol : Symbol) :
    (s.setPackage p
      { s.packages p with
        externalSymbols := (s.packages p).externalSymbols.remove symbol
        internalSymbols := (s.packages p).internalSymbols.put symbol }).findStatus p symbol.name =
      some (symbol, .internal) := by
  simp [State.findStatus, SymbolTable.remove, SymbolTable.put]

theorem unexports_of_home (haccessible : s.findSymbol p symbol.name = some symbol)
    (hhome : s.home symbol = some p) : Unexports s p symbol := by
  unfold Unexports State.unexportSymbol
  by_cases hext : (s.packages p).externalSymbols symbol.name = some symbol
  · simp only [hhome, hext, if_true]
    exact ⟨trivial, .internal, by decide, findStatus_unexported s p symbol⟩
  · simp only [hhome, if_true, if_neg hext]
    exact ⟨trivial, (exists_findStatus_iff haccessible).mpr hext⟩

/-- For every other symbol nothing changes, and only the packages that are used are asked whether
there is to be an error. -/
theorem unexports_iff_of_home_ne (haccessible : s.findSymbol p symbol.name = some symbol)
    (hhome : s.home symbol ≠ some p) :
    Unexports s p symbol ↔
      ¬s.Exports p symbol ∧ ∃ q ∈ (s.packages p).useList, s.Exports q symbol := by
  have hused : (s.packages p).useList.any
      (fun q => (s.packages q).externalSymbols symbol.name = some symbol) = true ↔
        ∃ q ∈ (s.packages p).useList, s.Exports q symbol := by
    simp [State.Exports]
  unfold Unexports State.unexportSymbol
  simp only [hhome, if_false, hused]
  by_cases hq : ∃ q ∈ (s.packages p).useList, s.Exports q symbol
  · rw [if_pos hq, and_iff_left hq, ← exists_findStatus_iff haccessible]
    exact and_iff_right rfl
  · rw [if_neg hq]
    constructor
    · intro h
      cases h.1
    · intro h
      exact absurd h.2 hq

/-- **An accessible symbol is unexported** exactly when it is at home in the package, or when it is
inherited and not external already. -/
theorem unexports_iff (haccessible : s.findSymbol p symbol.name = some symbol) :
    Unexports s p symbol ↔
      s.home symbol = some p ∨
        ¬s.Exports p symbol ∧ ∃ q ∈ (s.packages p).useList, s.Exports q symbol := by
  by_cases hhome : s.home symbol = some p
  · exact iff_of_true (unexports_of_home haccessible hhome) (Or.inl hhome)
  · rw [unexports_iff_of_home_ne haccessible hhome]
    exact (or_iff_right hhome).symm

end

/-- `A` exports a symbol of its own, `B` imports it, and `C` uses `A` and exports it once more. -/
def exportsRun : List Op :=
  [.makePackage "A" [] [], .makePackage "B" [] [], .makePackage "C" [] [.name "A"],
    .intern 0 "X" false, .exportSymbol 0 ⟨"X", 0⟩, .importSymbol 1 ⟨"X", 0⟩,
    .exportSymbol 2 ⟨"X", 0⟩]

theorem unexports_exportsRun : Unexports (runOps 3 .initial exportsRun) 0 ⟨"X", 0⟩ := by
  rw [unexports_iff (by decide)]
  exact Or.inl (by decide)

/-- Neither the imported symbol nor the one that is external in two packages is unexported. -/
theorem not_unexports_exportsRun :
    RunsTo 3 (fun _ _ => True) (runOps 3 .initial exportsRun) ∧
      ((runOps 3 .initial exportsRun).findSymbol 1 "X" = some ⟨"X", 0⟩ ∧
        ¬Unexports (runOps 3 .initial exportsRun) 1 ⟨"X", 0⟩) ∧
      ((runOps 3 .initial exportsRun).findSymbol 2 "X" = some ⟨"X", 0⟩ ∧
        ¬Unexports (runOps 3 .initial exportsRun) 2 ⟨"X", 0⟩) := by
  refine ⟨RunsTo.initial.runOps (by decide), ⟨by decide, ?_⟩, ⟨by decide, ?_⟩⟩
  · rw [unexports_iff_of_home_ne (by decide) (by decide)]
    decide
  · rw [unexports_iff_of_home_ne (by decide) (by decide)]
    decide

end Xcl.Packages
