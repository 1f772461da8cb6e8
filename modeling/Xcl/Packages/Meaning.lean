import Xcl.Packages.Model
import Mathlib.Tactic

/-!
# What a name means in a package

* `KeepsMeanings`: every name that has a symbol in a package keeps it;
* **`keepsMeanings_iff`**: a use or an export that returns keeps the meanings exactly when there is
  no conflict. Neither operation looks for all of them.
-/

namespace Xcl.Packages

variable {s s' : State} {p q r : ℕ} {symbol : Symbol} {name : String}

/-- A name with a symbol in a package keeps it; its status may change. -/
def KeepsMeanings (s s' : State) : Prop :=
  ∀ q name symbol, s.findSymbol q name = some symbol → s'.findSymbol q name = some symbol

namespace State

/-- What is found in `q` before the external symbols of `p` are looked at. -/
def findBefore (s : State) (p q : ℕ) (name : String) : Option Symbol :=
  s.present q name <|> s.inherited name ((s.packages q).useList.takeWhile (· ≠ p))

end State

/-- The operation brings no symbol before another one that is found under its name. -/
def Op.NoConflict (s : State) : Op → Prop
  | .usePackage p r => r ∈ (s.packages p).useList ∨
    ∀ name, s.present p name = none → ∀ symbol ∈ s.inherited name (s.packages p).useList,
      ∀ sym ∈ (s.packages r).externalSymbols name, sym = symbol
  | .exportSymbol p symbol => (s.packages p).externalSymbols symbol.name = some symbol ∨
    (∀ sym ∈ s.findSymbol p symbol.name, sym = symbol) ∧
    ∀ q, q ≠ p → p ∈ (s.packages q).useList → s.findBefore p q symbol.name = none →
      ∀ sym ∈ s.findSymbol q symbol.name, sym = symbol
  | _ => True

/-! ## What is found afterwards -/

theorem inherited_congr {packages : List ℕ}
    (h : ∀ q ∈ packages,
      (s'.packages q).externalSymbols name = (s.packages q).externalSymbols name) :
    s'.inherited name packages = s.inherited name packages := by
  induction packages with
  | nil => rfl
  | cons q rest ih =>
    unfold State.inherited
    rw [h q (by simp), ih fun q hq => h q (by simp [hq])]

theorem inherited_append (packages rest : List ℕ) :
    s.inherited name (packages ++ rest) =
      (s.inherited name packages <|> s.inherited name rest) := by
  induction packages with
  | nil => simp [State.inherited]
  | cons q packages ih =>
    simp only [List.cons_append, State.inherited, ih]
    cases (s.packages q).externalSymbols name <;> simp

theorem findSymbol_of_findBefore (h : s.findBefore p q name = some symbol) :
    s.findSymbol q name = some symbol := by
  unfold State.findBefore at h
  unfold State.findSymbol
  rw [← List.takeWhile_append_dropWhile (p := (· ≠ p)) (l := (s.packages q).useList),
    inherited_append]
  cases hpresent : s.present q name with
  | some sym =>
    rw [hpresent] at h
    exact h
  | none =>
    rw [hpresent] at h
    have hinherited : s.inherited name ((s.packages q).useList.takeWhile (· ≠ p)) = some symbol := h
    rw [hinherited]
    rfl

section Use

theorem usePackage_tables (q : ℕ) :
    ((s.usePackage p r).packages q).externalSymbols = (s.packages q).externalSymbols ∧
      ((s.usePackage p r).packages q).internalSymbols = (s.packages q).internalSymbols := by
  unfold State.usePackage
  split
  · exact ⟨rfl, rfl⟩
  · by_cases hr : q = r <;> by_cases hp : q = p <;> by_cases hrp : r = p <;>
      simp_all

theorem present_usePackage : (s.usePackage p r).present q name = s.present q name := by
  unfold State.present
  rw [(usePackage_tables q).1, (usePackage_tables q).2]

theorem inherited_usePackage {packages : List ℕ} :
    (s.usePackage p r).inherited name packages = s.inherited name packages := by
  apply inherited_congr
  intro q _
  rw [(usePackage_tables q).1]

theorem findSymbol_usePackage (h : r ∉ (s.packages p).useList) :
    (s.usePackage p r).findSymbol q name =
      if q = p then
        s.present p name <|> (s.packages r).externalSymbols name <|>
          s.inherited name (s.packages p).useList
      else s.findSymbol q name := by
  unfold State.findSymbol
  rw [present_usePackage, inherited_usePackage, State.usePackage_useList h]
  split
  · rename_i hq
    subst hq
    rfl
  · rfl

theorem keepsMeanings_usePackage_iff :
    KeepsMeanings s (s.usePackage p r) ↔ (Op.usePackage p r).NoConflict s := by
  by_cases hused : r ∈ (s.packages p).useList
  · have hsame : s.usePackage p r = s := by simp [State.usePackage, hused]
    rw [hsame]
    exact ⟨fun _ => Or.inl hused, fun _ _ _ _ h => h⟩
  · constructor
    · intro hkeeps
      refine Or.inr fun name hpresent symbol hsymbol sym hsym => ?_
      have hfind : s.findSymbol p name = some symbol := by
        unfold State.findSymbol
        rw [hpresent]
        exact hsymbol
      have hafter := hkeeps p name symbol hfind
      rw [findSymbol_usePackage hused, if_pos rfl, hpresent, Option.mem_def.1 hsym] at hafter
      simpa using hafter
    · intro hno q name symbol hfind
      rw [findSymbol_usePackage hused]
      split
      · rename_i hq
        subst hq
        unfold State.findSymbol at hfind
        cases hpresent : s.present q name with
        | some sym =>
          rw [hpresent] at hfind
          exact hfind
        | none =>
          rw [hpresent] at hfind
          have hinherited : s.inherited name (s.packages q).useList = some symbol := hfind
          cases hsym : (s.packages r).externalSymbols name with
          | none => exact hfind
          | some sym =>
            have heq := hno.resolve_left hused name hpresent symbol hinherited sym hsym
            rw [heq]
            rfl
      · exact hfind

end Use

section Export

theorem makeExternal_externalSymbols (q : ℕ) (n : String) :
    ((s.makeExternal p symbol).packages q).externalSymbols n =
      if q = p ∧ n = symbol.name then some symbol else (s.packages q).externalSymbols n := by
  unfold State.makeExternal
  by_cases hq : q = p
  · subst hq
    by_cases hn : n = symbol.name <;> simp [SymbolTable.put, hn]
  · simp [hq]

theorem makeExternal_internalSymbols (q : ℕ) (n : String) :
    ((s.makeExternal p symbol).packages q).internalSymbols n =
      if q = p ∧ n = symbol.name then none else (s.packages q).internalSymbols n := by
  unfold State.makeExternal
  by_cases hq : q = p
  · subst hq
    by_cases hn : n = symbol.name <;> simp [SymbolTable.remove, hn]
  · simp [hq]

theorem makeExternal_useList (q : ℕ) :
    ((s.makeExternal p symbol).packages q).useList = (s.packages q).useList := by
  unfold State.makeExternal
  by_cases hq : q = p
  · subst hq
    simp
  · simp [hq]

theorem inherited_makeExternal (packages : List ℕ) :
    (s.makeExternal p symbol).inherited symbol.name packages =
      if p ∈ packages then
        s.inherited symbol.name (packages.takeWhile (· ≠ p)) <|> some symbol
      else s.inherited symbol.name packages := by
  induction packages with
  | nil => rfl
  | cons q rest ih =>
    unfold State.inherited
    rw [makeExternal_externalSymbols, ih]
    by_cases hq : q = p
    · subst hq
      simp
    · by_cases hrest : p ∈ rest
      · cases hext : (s.packages q).externalSymbols symbol.name <;>
          simp [hq, Ne.symm hq, hrest, hext]
      · simp [hq, Ne.symm hq, hrest]

theorem present_makeExternal (q : ℕ) (n : String) :
    (s.makeExternal p symbol).present q n =
      if q = p ∧ n = symbol.name then some symbol else s.present q n := by
  unfold State.present
  rw [makeExternal_externalSymbols, makeExternal_internalSymbols]
  split <;> rfl

theorem findSymbol_makeExternal_self :
    (s.makeExternal p symbol).findSymbol p symbol.name = some symbol := by
  unfold State.findSymbol
  rw [present_makeExternal, if_pos ⟨rfl, rfl⟩]
  rfl

theorem findSymbol_makeExternal_of_ne {n : String} (hn : n ≠ symbol.name) :
    (s.makeExternal p symbol).findSymbol q n = s.findSymbol q n := by
  unfold State.findSymbol
  rw [present_makeExternal, if_neg fun h => hn h.2, makeExternal_useList]
  congr 1
  funext _
  apply inherited_congr
  intro q' _
  rw [makeExternal_externalSymbols, if_neg fun h => hn h.2]

/-- In a package that uses `p`, the symbol is found unless another one comes before it. -/
theorem findSymbol_makeExternal_of_uses (hq : q ≠ p) (huses : p ∈ (s.packages q).useList) :
    (s.makeExternal p symbol).findSymbol q symbol.name =
      (s.findBefore p q symbol.name <|> some symbol) := by
  unfold State.findSymbol State.findBefore
  rw [present_makeExternal, if_neg fun h => hq h.1, makeExternal_useList, inherited_makeExternal,
    if_pos huses]
  cases s.present q symbol.name <;> rfl

theorem findSymbol_makeExternal_of_not_uses (hq : q ≠ p) (huses : p ∉ (s.packages q).useList) :
    (s.makeExternal p symbol).findSymbol q symbol.name = s.findSymbol q symbol.name := by
  unfold State.findSymbol
  rw [present_makeExternal, if_neg fun h => hq h.1, makeExternal_useList, inherited_makeExternal,
    if_neg huses]

theorem findSymbol_makeExternal_of_external {n : String}
    (hext : (s.packages p).externalSymbols symbol.name = some symbol) :
    (s.makeExternal p symbol).findSymbol q n = s.findSymbol q n := by
  have hsame : ∀ q n, ((s.makeExternal p symbol).packages q).externalSymbols n =
      (s.packages q).externalSymbols n := by
    intro q n
    rw [makeExternal_externalSymbols]
    split
    · rename_i h
      rw [h.1, h.2, hext]
    · rfl
  have hpresent : (s.makeExternal p symbol).present q n = s.present q n := by
    rw [present_makeExternal]
    split
    · rename_i h
      unfold State.present
      rw [h.1, h.2, hext]
      rfl
    · rfl
  unfold State.findSymbol
  rw [hpresent, makeExternal_useList, inherited_congr fun q _ => hsame q n]

theorem keepsMeanings_makeExternal_iff :
    KeepsMeanings s (s.makeExternal p symbol) ↔ (Op.exportSymbol p symbol).NoConflict s := by
  by_cases hext : (s.packages p).externalSymbols symbol.name = some symbol
  · refine ⟨fun _ => Or.inl hext, fun _ q name sym hfind => ?_⟩
    rw [findSymbol_makeExternal_of_external hext]
    exact hfind
  · constructor
    · intro hkeeps
      refine Or.inr ⟨?_, ?_⟩
      · intro sym hsym
        have hafter := hkeeps p symbol.name sym hsym
        rw [findSymbol_makeExternal_self] at hafter
        exact (Option.some.inj hafter).symm
      · intro q hq huses hbefore sym hsym
        have hafter := hkeeps q symbol.name sym hsym
        rw [findSymbol_makeExternal_of_uses hq huses, hbefore] at hafter
        exact (Option.some.inj hafter).symm
    · intro hno q name sym hfind
      obtain ⟨hself, husers⟩ := hno.resolve_left hext
      by_cases hn : name = symbol.name
      · subst hn
        by_cases hq : q = p
        · subst hq
          rw [findSymbol_makeExternal_self, hself sym hfind]
        · by_cases huses : p ∈ (s.packages q).useList
          · rw [findSymbol_makeExternal_of_uses hq huses]
            cases hbefore : s.findBefore p q symbol.name with
            | some found =>
              rw [findSymbol_of_findBefore hbefore] at hfind
              exact hfind
            | none =>
              rw [husers q hq huses hbefore sym hfind]
              rfl
          · rw [findSymbol_makeExternal_of_not_uses hq huses]
            exact hfind
      · rw [findSymbol_makeExternal_of_ne hn]
        exact hfind

theorem exportSymbol_returns (hreturns : (s.exportSymbol p symbol).1 = none) :
    (s.exportSymbol p symbol).2 = s.makeExternal p symbol ∨
      (s.exportSymbol p symbol).2 = s ∧
        (s.packages p).externalSymbols symbol.name = some symbol := by
  unfold State.exportSymbol at hreturns ⊢
  cases hconflict : s.exportConflict symbol (s.packages p).usedByList with
  | some q =>
    rw [hconflict] at hreturns
    cases hreturns
  | none =>
    simp only [hconflict] at hreturns
    by_cases hhome : s.home symbol = some p
    · by_cases hext : (s.packages p).externalSymbols symbol.name = some symbol
      · exact Or.inr ⟨by simp [hhome, hext], hext⟩
      · exact Or.inl (by simp [hhome, hext])
    · by_cases hfind : s.findSymbol p symbol.name = some symbol
      · exact Or.inl (by simp [hhome, hfind])
      · simp [hhome, hfind] at hreturns

end Export

/-! ## The two operations -/

def Op.Accesses : Op → Prop
  | .exportSymbol _ _ | .usePackage _ _ => True
  | _ => False

/-- **A use or an export that returns keeps the meanings** exactly when it has no conflict. -/
theorem keepsMeanings_iff (keyword : ℕ) (s : State) (op : Op) (hop : op.Accesses)
    (hreturns : (exec keyword s op).1 = none) :
    KeepsMeanings s (exec keyword s op).2 ↔ op.NoConflict s := by
  cases op with
  | usePackage p r => exact keepsMeanings_usePackage_iff
  | exportSymbol p symbol =>
    rcases exportSymbol_returns hreturns with hexternal | ⟨hsame, hext⟩
    · have hexec : (exec keyword s (.exportSymbol p symbol)).2 = s.makeExternal p symbol :=
        hexternal
      rw [hexec]
      exact keepsMeanings_makeExternal_iff
    · have hexec : (exec keyword s (.exportSymbol p symbol)).2 = s := hsame
      rw [hexec]
      exact ⟨fun _ => Or.inl hext, fun _ _ _ _ h => h⟩
  | _ => exact hop.elim

/-- Package `C` uses `B` and then `A`; `B` exports a symbol with the name of a symbol of `A`. -/
def usersRun : List Op :=
  [.makePackage "A" [] [], .makePackage "B" [] [], .makePackage "C" [] [.name "B", .name "A"],
    .intern 0 "X" false, .intern 1 "X" false, .exportSymbol 1 ⟨"X", 1⟩]

/-- `A` uses `B` without a conflict: it has a symbol with the name itself. -/
theorem keepsMeanings_usersRun :
    KeepsMeanings (runOps 3 .initial usersRun)
      (exec 3 (runOps 3 .initial usersRun) (.usePackage 0 1)).2 := by
  rw [keepsMeanings_iff 3 (runOps 3 .initial usersRun) (.usePackage 0 1) trivial rfl]
  refine Or.inr fun name _ symbol hsymbol => ?_
  have hnone : ((runOps 3 .initial usersRun).packages 0).useList = [] := by decide
  rw [hnone] at hsymbol
  cases hsymbol

/-- The export from `A` and the use of `A` take the name in `C` away from the symbol of `B`. -/
theorem meanings_change :
    (RunsTo 3 (fun _ _ => True) (runOps 3 .initial usersRun) ∧
      (exec 3 (runOps 3 .initial usersRun) (.exportSymbol 0 ⟨"X", 0⟩)).1 = none ∧
      ¬KeepsMeanings (runOps 3 .initial usersRun)
        (exec 3 (runOps 3 .initial usersRun) (.exportSymbol 0 ⟨"X", 0⟩)).2) ∧
    (RunsTo 3 (fun _ _ => True)
        (runOps 3 .initial (usersRun ++ [.unusePackage 2 0, .exportSymbol 0 ⟨"X", 0⟩])) ∧
      ¬KeepsMeanings
        (runOps 3 .initial (usersRun ++ [.unusePackage 2 0, .exportSymbol 0 ⟨"X", 0⟩]))
        (exec 3 (runOps 3 .initial (usersRun ++ [.unusePackage 2 0, .exportSymbol 0 ⟨"X", 0⟩]))
          (.usePackage 2 0)).2) := by
  refine ⟨⟨RunsTo.initial.runOps (by decide), by decide, fun h => ?_⟩,
    ⟨RunsTo.initial.runOps (by decide), fun h => ?_⟩⟩
  · have hfind := h 2 "X" ⟨"X", 1⟩ (by decide)
    revert hfind
    decide
  · have hfind := h 2 "X" ⟨"X", 1⟩ (by decide)
    revert hfind
    decide

end Xcl.Packages
