import Xcl.Packages.Model
import Mathlib.Tactic

/-!
# The tables of a package

* `Package.Coherent`: no name is internal and external, the symbols at home in the package and its
  shadowing symbols are present;
* **`coherent_of_runsTo`**: they are coherent in every state of a run of such steps.
-/

namespace Xcl.Packages

structure Package.Coherent (package : Package) (home : Symbol → Prop) : Prop where
  disjoint : ∀ n, package.internalSymbols n = none ∨ package.externalSymbols n = none
  has_of_home : ∀ symbol, home symbol → package.Has symbol
  has_of_shadowing : ∀ n symbol, package.shadowingSymbols n = some symbol → package.Has symbol

/-- The operations that make packages, symbols and entries of tables. -/
def Op.OnTables : Op → Prop
  | .addNickname _ _ | .renamePackage _ _ _ | .deletePackage _ => False
  | _ => True

instance : DecidablePred Op.OnTables
  | .addNickname _ _ | .renamePackage _ _ _ | .deletePackage _ => inferInstanceAs (Decidable False)
  | .makeSymbol _ | .makePackage _ _ _ | .intern _ _ _ | .importSymbol _ _ | .exportSymbol _ _
  | .unexportSymbol _ _ | .uninternSymbol _ _ | .shadow _ _ | .shadowingImport _ _
  | .usePackage _ _ | .unusePackage _ _ => inferInstanceAs (Decidable True)

/-- The operations among those on tables that do not reach a branch which forgets a table. -/
def Op.KeepsTables (s : State) : Op → Prop
  | .importSymbol p symbol =>
    s.home symbol = some p ∨ (s.packages p).externalSymbols symbol.name ≠ some symbol
  | .uninternSymbol p symbol =>
    (s.packages p).shadowingSymbols symbol.name ≠ some symbol ∨
      s.uninternError p symbol ≠ none
  | .shadowingImport p symbol =>
    ∀ sym ∈ s.present p symbol.name, sym = symbol ∨ s.home sym ≠ some p
  | op => op.OnTables

instance (s : State) : DecidablePred (Op.KeepsTables s)
  | .importSymbol _ _ | .uninternSymbol _ _ => inferInstanceAs (Decidable (_ ∨ _))
  | .shadowingImport p symbol => inferInstanceAs (Decidable (∀ sym ∈ s.present p symbol.name, _))
  | .makeSymbol _ | .makePackage _ _ _ | .intern _ _ _ | .exportSymbol _ _ | .unexportSymbol _ _
  | .shadow _ _ | .usePackage _ _ | .unusePackage _ _ => inferInstanceAs (Decidable True)
  | .addNickname _ _ | .renamePackage _ _ _ | .deletePackage _ => inferInstanceAs (Decidable False)

/-! ## The invariant -/

/-- Every symbol of the table is found under its name. -/
def SymbolTable.Named (table : SymbolTable) : Prop :=
  ∀ n symbol, table n = some symbol → symbol.name = n

theorem SymbolTable.Named.put {table : SymbolTable} (h : table.Named) (symbol : Symbol) :
    (table.put symbol).Named := by
  intro n sym hsym
  by_cases hn : n = symbol.name
  · subst hn
    have heq : symbol = sym := by simpa [SymbolTable.put] using hsym
    rw [heq]
  · exact h n sym (by simpa [SymbolTable.put, hn] using hsym)

theorem SymbolTable.Named.remove {table : SymbolTable} (h : table.Named) (symbol : Symbol) :
    (table.remove symbol).Named := by
  intro n sym hsym
  by_cases hn : n = symbol.name
  · subst hn
    simp [SymbolTable.remove] at hsym
  · exact h n sym (by simpa [SymbolTable.remove, hn] using hsym)

structure Package.Named (package : Package) : Prop where
  internal : package.internalSymbols.Named
  external : package.externalSymbols.Named
  shadowing : package.shadowingSymbols.Named

def Package.SameTables (package package' : Package) : Prop :=
  package'.internalSymbols = package.internalSymbols ∧
    package'.externalSymbols = package.externalSymbols ∧
    package'.shadowingSymbols = package.shadowingSymbols

theorem Package.Coherent.congr {package package' : Package} {home : Symbol → Prop}
    (h : package.Coherent home) (hsame : package.SameTables package') :
    package'.Coherent home := by
  obtain ⟨hint, hext, hsh⟩ := hsame
  constructor
  · rw [hint, hext]
    exact h.disjoint
  · unfold Package.Has
    rw [hint, hext]
    exact h.has_of_home
  · unfold Package.Has
    rw [hint, hext, hsh]
    exact h.has_of_shadowing

/-- What the steps of a run keep. -/
structure Invariant (s : State) : Prop where
  coherent : ∀ p, (s.packages p).Coherent fun symbol => s.home symbol = some p
  named : ∀ p, (s.packages p).Named
  fresh : ∀ p, s.packageCount ≤ p → (Package.new none).SameTables (s.packages p)

theorem invariant_initial : Invariant .initial where
  coherent p := by
    constructor
    · intro n
      exact Or.inl rfl
    · intro symbol hhome
      cases hhome
    · intro n symbol hshadowing
      cases hshadowing
  named p := by
    constructor <;> (intro n symbol hsymbol; cases hsymbol)
  fresh p _ := ⟨rfl, rfl, rfl⟩

variable {s s' : State} {p q : ℕ} {symbol : Symbol} {name : String}

theorem Invariant.of_package (h : Invariant s) (hp : p < s.packageCount)
    (hcount : s'.packageCount = s.packageCount)
    (hother : ∀ q, q ≠ p → s'.packages q = s.packages q)
    (hhome : ∀ symbol q, q ≠ p → s'.home symbol = some q → s.home symbol = some q)
    (hcoherent : (s'.packages p).Coherent fun symbol => s'.home symbol = some p)
    (hnamed : (s'.packages p).Named) : Invariant s' := by
  constructor
  · intro q
    by_cases hq : q = p
    · subst hq
      exact hcoherent
    · have hold := h.coherent q
      rw [hother q hq]
      exact ⟨hold.disjoint, fun symbol hs => hold.has_of_home symbol (hhome symbol q hq hs),
        hold.has_of_shadowing⟩
  · intro q
    by_cases hq : q = p
    · subst hq
      exact hnamed
    · rw [hother q hq]
      exact h.named q
  · intro q hq
    rw [hcount] at hq
    have hne : q ≠ p := by omega
    rw [hother q hne]
    exact h.fresh q hq

theorem Invariant.of_sameTables (h : Invariant s) (hcount : s'.packageCount = s.packageCount)
    (hhome : s'.home = s.home) (hsame : ∀ q, (s.packages q).SameTables (s'.packages q)) :
    Invariant s' := by
  constructor
  · intro q
    rw [hhome]
    exact (h.coherent q).congr (hsame q)
  · intro q
    obtain ⟨hint, hext, hsh⟩ := hsame q
    constructor
    · rw [hint]
      exact (h.named q).internal
    · rw [hext]
      exact (h.named q).external
    · rw [hsh]
      exact (h.named q).shadowing
  · intro q hq
    rw [hcount] at hq
    obtain ⟨hint, hext, hsh⟩ := hsame q
    unfold Package.SameTables
    rw [hint, hext, hsh]
    exact h.fresh q hq

/-! ## Steps -/

theorem present_eq_none : s.present p name = none ↔
    (s.packages p).externalSymbols name = none ∧ (s.packages p).internalSymbols name = none := by
  unfold State.present
  cases (s.packages p).externalSymbols name <;> simp

theorem present_of_findSymbol (h : s.findSymbol p name = none) : s.present p name = none := by
  unfold State.findSymbol at h
  cases hpresent : s.present p name with
  | none => rfl
  | some symbol => rw [hpresent] at h; cases h

/-- The tables of the package agree outside of the name. -/
def Package.SameExcept (name : String) (package package' : Package) : Prop :=
  ∀ n, n ≠ name → package'.internalSymbols n = package.internalSymbols n ∧
    package'.externalSymbols n = package.externalSymbols n ∧
    package'.shadowingSymbols n = package.shadowingSymbols n

theorem Invariant.of_name (h : Invariant s) (name : String) (hp : p < s.packageCount)
    (hcount : s'.packageCount = s.packageCount)
    (hother : ∀ q, q ≠ p → s'.packages q = s.packages q)
    (hhome : ∀ sym q, q ≠ p ∨ sym.name ≠ name → s'.home sym = some q → s.home sym = some q)
    (htables : (s.packages p).SameExcept name (s'.packages p))
    (hdisjoint : (s'.packages p).internalSymbols name = none ∨
      (s'.packages p).externalSymbols name = none)
    (hathome : ∀ sym, sym.name = name → s'.home sym = some p → (s'.packages p).Has sym)
    (hshadowing : ∀ sym, (s'.packages p).shadowingSymbols name = some sym →
      (s'.packages p).Has sym)
    (hnamed : (s'.packages p).Named) : Invariant s' := by
  have hold := h.coherent p
  have hhas : ∀ sym, sym.name ≠ name → (s.packages p).Has sym → (s'.packages p).Has sym := by
    intro sym hne hsym
    unfold Package.Has at hsym ⊢
    rw [(htables _ hne).1, (htables _ hne).2.1]
    exact hsym
  apply h.of_package hp hcount hother (fun sym q hq => hhome sym q (Or.inl hq))
  · constructor
    · intro n
      by_cases hn : n = name
      · subst hn
        exact hdisjoint
      · rw [(htables n hn).1, (htables n hn).2.1]
        exact hold.disjoint n
    · intro sym hsym
      by_cases hn : sym.name = name
      · exact hathome sym hn hsym
      · exact hhas sym hn (hold.has_of_home sym (hhome sym p (Or.inr hn) hsym))
    · intro n sym hsym
      by_cases hn : n = name
      · subst hn
        exact hshadowing sym hsym
      · rw [(htables n hn).2.2] at hsym
        have hname := (h.named p).shadowing n sym hsym
        exact hhas sym (by rw [hname]; exact hn) (hold.has_of_shadowing n sym hsym)
  · exact hnamed

theorem Invariant.present_of_has (h : Invariant s) (hhas : (s.packages p).Has symbol) :
    s.present p symbol.name = some symbol := by
  unfold State.present
  rcases hhas with hext | hint
  · rw [hext]
    rfl
  · rcases (h.coherent p).disjoint symbol.name with hnone | hnone
    · rw [hnone] at hint
      cases hint
    · rw [hnone, hint]
      rfl

theorem Invariant.present_of_home (h : Invariant s) (hhome : s.home symbol = some p) :
    s.present p symbol.name = some symbol :=
  h.present_of_has ((h.coherent p).has_of_home symbol hhome)

theorem Invariant.present_of_shadowing (h : Invariant s)
    (hshadowing : (s.packages p).shadowingSymbols name = some symbol) :
    s.present p name = some symbol := by
  have hname := (h.named p).shadowing name symbol hshadowing
  rw [← hname]
  exact h.present_of_has ((h.coherent p).has_of_shadowing name symbol hshadowing)

theorem findSymbol_of_present (h : s.present p name = some symbol) :
    s.findSymbol p name = some symbol := by
  unfold State.findSymbol
  rw [h]
  rfl

theorem packages_setPackage (s : State) (p : ℕ) (package : Package) :
    (s.setPackage p package).packages p = package := Function.update_self ..

theorem Invariant.of_present (h : Invariant s) (symbol : Symbol) (hp : p < s.packageCount)
    {package : Package} (hcount : s'.packageCount = s.packageCount)
    (hpackages : s'.packages = s.packages)
    (hhome : ∀ sym q, sym ≠ symbol ∨ q ≠ p → s'.home sym = some q → s.home sym = some q)
    (htables : (s.packages p).SameExcept symbol.name package)
    (hdisjoint : package.internalSymbols symbol.name = none ∨
      package.externalSymbols symbol.name = none)
    (hhas : package.Has symbol)
    (hpresent : ∀ sym, s.present p symbol.name = some sym → s.home sym = some p → sym = symbol)
    (hshadowing : ∀ sym, package.shadowingSymbols symbol.name = some sym → sym = symbol)
    (hnamed : package.Named) : Invariant (s'.setPackage p package) := by
  have hcount' : (s'.setPackage p package).packageCount = s.packageCount := hcount
  apply h.of_name symbol.name hp hcount'
  · intro q hq
    rw [State.setPackage_packages, Function.update_of_ne hq, hpackages]
  · intro sym q hne hsym
    apply hhome sym q _ hsym
    rcases hne with hq | hname
    · exact Or.inr hq
    · refine Or.inl fun heq => hname ?_
      rw [heq]
  · rw [packages_setPackage]
    exact htables
  · rw [packages_setPackage]
    exact hdisjoint
  · intro sym hname hsym
    rw [packages_setPackage]
    by_cases heq : sym = symbol
    · subst heq
      exact hhas
    · have hold := hhome sym p (Or.inl heq) hsym
      have hpres := h.present_of_home hold
      rw [hname] at hpres
      exact absurd (hpresent sym hpres hold) heq
  · intro sym hsym
    rw [packages_setPackage] at hsym ⊢
    have heq := hshadowing sym hsym
    subst heq
    exact hhas
  · rw [packages_setPackage]
    exact hnamed

theorem Invariant.setPackage (h : Invariant s) (symbol : Symbol) (hp : p < s.packageCount)
    {package : Package} (htables : (s.packages p).SameExcept symbol.name package)
    (hdisjoint : package.internalSymbols symbol.name = none ∨
      package.externalSymbols symbol.name = none)
    (hhas : package.Has symbol)
    (hpresent : ∀ sym, s.present p symbol.name = some sym → s.home sym = some p → sym = symbol)
    (hshadowing : ∀ sym, package.shadowingSymbols symbol.name = some sym → sym = symbol)
    (hnamed : package.Named) : Invariant (s.setPackage p package) :=
  h.of_present symbol hp rfl rfl (fun _ _ _ hsym => hsym) htables hdisjoint hhas hpresent
    hshadowing hnamed

theorem Invariant.freshSymbol (h : Invariant s) (hp : p < s.packageCount) {package : Package}
    (hpresent : s.present p name = none) (htables : (s.packages p).SameExcept name package)
    (hdisjoint : package.internalSymbols name = none ∨ package.externalSymbols name = none)
    (hhas : package.Has (s.freshSymbol name))
    (hshadowing : ∀ sym, package.shadowingSymbols name = some sym → sym = s.freshSymbol name)
    (hnamed : package.Named) :
    Invariant ((s.makeSymbol name (some p)).setPackage p package) := by
  have hcount : (s.makeSymbol name (some p)).packageCount = s.packageCount := rfl
  apply h.of_present (s.freshSymbol name) hp hcount rfl _ htables hdisjoint hhas _ hshadowing
    hnamed
  · intro sym q hne hsym
    by_cases heq : sym = s.freshSymbol name
    · subst heq
      simp at hsym hne
      exact absurd hsym.symm hne
    · simpa [heq] using hsym
  · intro sym hsym
    rw [State.freshSymbol_name, hpresent] at hsym
    cases hsym

theorem Invariant.intern (h : Invariant s) (keyword : ℕ) (hp : p < s.packageCount)
    (exportp : Bool) : Invariant (s.intern keyword p name exportp) := by
  unfold State.intern
  cases hfind : s.findSymbol p name with
  | some symbol => exact h
  | none =>
    have hpresent := present_of_findSymbol hfind
    obtain ⟨hext, hint⟩ := present_eq_none.1 hpresent
    have hnamed := h.named p
    have hshadowing : ∀ sym, (s.packages p).shadowingSymbols name ≠ some sym := by
      intro sym hsym
      rw [h.present_of_shadowing hsym] at hpresent
      cases hpresent
    apply h.freshSymbol hp hpresent
    · intro n hn
      by_cases hkey : p = keyword ∨ exportp = true <;> simp [hkey, SymbolTable.put, hn]
    · by_cases hkey : p = keyword ∨ exportp = true <;> simp [hkey, hint, hext]
    · unfold Package.Has
      by_cases hkey : p = keyword ∨ exportp = true <;> simp [hkey, SymbolTable.put]
    · intro sym hsym
      have hold : (s.packages p).shadowingSymbols name = some sym := by
        by_cases hkey : p = keyword ∨ exportp = true <;> simpa [hkey] using hsym
      exact absurd hold (hshadowing sym)
    · by_cases hkey : p = keyword ∨ exportp = true
      · simpa [hkey] using ⟨hnamed.internal, hnamed.external.put _, hnamed.shadowing⟩
      · simpa [hkey] using ⟨hnamed.internal.put _, hnamed.external, hnamed.shadowing⟩

theorem Invariant.importSymbol (h : Invariant s) (hp : p < s.packageCount)
    (hmeets : (Op.importSymbol p symbol).KeepsTables s) :
    Invariant (s.importSymbol p symbol).2 := by
  unfold State.importSymbol
  by_cases hhome : s.home symbol = some p
  · simpa [hhome] using h
  have hnotext : (s.packages p).externalSymbols symbol.name ≠ some symbol :=
    hmeets.resolve_left hhome
  cases hclash : (s.findSymbol p symbol.name).filter (· ≠ symbol) with
  | some sym => simpa [hhome, hclash] using h
  | none =>
    have honly : ∀ sym, s.present p symbol.name = some sym → sym = symbol := by
      intro sym hsym
      rw [findSymbol_of_present hsym] at hclash
      simpa [Option.filter] using hclash
    have hext : (s.packages p).externalSymbols symbol.name = none := by
      cases hsym : (s.packages p).externalSymbols symbol.name with
      | none => rfl
      | some sym =>
        have hpres : s.present p symbol.name = some sym := by simp [State.present, hsym]
        rw [honly sym hpres] at hsym
        exact absurd hsym hnotext
    have hnamed := h.named p
    have hstep : ∀ t : State, t.packageCount = s.packageCount → t.packages = s.packages →
        (∀ sym q, sym ≠ symbol ∨ q ≠ p → t.home sym = some q → s.home sym = some q) →
        Invariant (t.setPackage p { s.packages p with
          internalSymbols := (s.packages p).internalSymbols.put symbol }) := by
      intro t hcount hpackages hkeeps
      apply h.of_present symbol hp hcount hpackages hkeeps
      · intro n hn
        simp [SymbolTable.put, hn]
      · exact Or.inr hext
      · simp [Package.Has, SymbolTable.put]
      · intro sym hsym _
        exact honly sym hsym
      · intro sym hsym
        exact honly sym (h.present_of_shadowing hsym)
      · exact ⟨hnamed.internal.put symbol, hnamed.external, hnamed.shadowing⟩
    simp only [hhome, if_false]
    split
    · apply hstep (s.setHome symbol (some p)) rfl rfl
      intro sym q hne hsym
      by_cases heq : sym = symbol
      · subst heq
        simp at hsym hne
        exact absurd hsym.symm hne
      · simpa [heq] using hsym
    · exact hstep s rfl rfl fun _ _ _ hsym => hsym

theorem Invariant.makeExternal (h : Invariant s) (hp : p < s.packageCount)
    (honly : ∀ sym, s.present p symbol.name = some sym → sym = symbol) :
    Invariant (s.makeExternal p symbol) := by
  unfold State.makeExternal
  apply h.setPackage symbol hp
  · intro n hn
    simp [SymbolTable.put, SymbolTable.remove, hn]
  · simp [SymbolTable.remove]
  · simp [Package.Has, SymbolTable.put]
  · intro sym hsym _
    exact honly sym hsym
  · intro sym hsym
    exact honly sym (h.present_of_shadowing hsym)
  · have hnamed := h.named p
    exact ⟨hnamed.internal.remove symbol, hnamed.external.put symbol, hnamed.shadowing⟩

theorem Invariant.exportSymbol (h : Invariant s) (hp : p < s.packageCount) :
    Invariant (s.exportSymbol p symbol).2 := by
  unfold State.exportSymbol
  cases s.exportConflict symbol (s.packages p).usedByList with
  | some q => exact h
  | none =>
    by_cases hhome : s.home symbol = some p
    · have hpresent := h.present_of_home hhome
      simp only [hhome, if_true]
      split
      · exact h
      · apply h.makeExternal hp
        intro sym hsym
        rw [hpresent] at hsym
        exact (Option.some.inj hsym).symm
    · simp only [hhome, if_false]
      split
      · exact h
      · rename_i hfind
        apply h.makeExternal hp
        intro sym hsym
        rw [findSymbol_of_present hsym] at hfind
        simpa using hfind

theorem Invariant.unexportSymbol (h : Invariant s) (hp : p < s.packageCount) :
    Invariant (s.unexportSymbol p symbol).2 := by
  unfold State.unexportSymbol
  by_cases hhome : s.home symbol = some p
  · have hpresent := h.present_of_home hhome
    have honly : ∀ sym, s.present p symbol.name = some sym → sym = symbol := by
      intro sym hsym
      rw [hpresent] at hsym
      exact (Option.some.inj hsym).symm
    simp only [hhome, if_true]
    split
    · apply h.setPackage symbol hp
      · intro n hn
        simp [SymbolTable.put, SymbolTable.remove, hn]
      · simp [SymbolTable.remove]
      · simp [Package.Has, SymbolTable.put]
      · intro sym hsym _
        exact honly sym hsym
      · intro sym hsym
        exact honly sym (h.present_of_shadowing hsym)
      · have hnamed := h.named p
        exact ⟨hnamed.internal.put symbol, hnamed.external.remove symbol, hnamed.shadowing⟩
    · exact h
  · simp only [hhome, if_false]
    split <;> exact h

theorem Invariant.of_removed (h : Invariant s) (symbol : Symbol) (hp : p < s.packageCount)
    {package : Package} (htables : (s.packages p).SameExcept symbol.name package)
    (hdisjoint : package.internalSymbols symbol.name = none ∨
      package.externalSymbols symbol.name = none)
    (hhas : (s.packages p).Has symbol)
    (hshadowing : package.shadowingSymbols = (s.packages p).shadowingSymbols)
    (hnotshadowing : (s.packages p).shadowingSymbols symbol.name ≠ some symbol)
    (hnamed : package.Named) :
    Invariant (State.setPackage
      (if s.home symbol = some p then s.setHome symbol none else s) p package) := by
  have hpresent := h.present_of_has hhas
  have hkeeps : ∀ sym q,
      (if s.home symbol = some p then s.setHome symbol none else s).home sym = some q →
      s.home sym = some q ∧ (sym = symbol → q ≠ p) := by
    intro sym q hsym
    by_cases hhome : s.home symbol = some p
    · by_cases heq : sym = symbol
      · simp [hhome, heq] at hsym
      · exact ⟨by simpa [hhome, heq] using hsym, fun h => absurd h heq⟩
    · rw [if_neg hhome] at hsym
      refine ⟨hsym, fun heq hq => hhome ?_⟩
      rw [← heq, ← hq, hsym]
  apply h.of_name symbol.name hp
  · split <;> rfl
  · intro q hq
    split <;> simp [hq]
  · intro sym q _ hsym
    exact (hkeeps sym q hsym).1
  · rw [packages_setPackage]
    exact htables
  · rw [packages_setPackage]
    exact hdisjoint
  · intro sym hname hsym
    obtain ⟨hold, hne⟩ := hkeeps sym p hsym
    have hpres := h.present_of_home hold
    rw [hname, hpresent] at hpres
    exact absurd rfl (hne (Option.some.inj hpres).symm)
  · intro sym hsym
    rw [packages_setPackage, hshadowing] at hsym
    have hold := h.present_of_shadowing hsym
    rw [hpresent] at hold
    have heq := Option.some.inj hold
    subst heq
    exact absurd hsym hnotshadowing
  · rw [packages_setPackage]
    exact hnamed

theorem Invariant.uninternSymbol (h : Invariant s) (hp : p < s.packageCount)
    (hmeets : (Op.uninternSymbol p symbol).KeepsTables s) :
    Invariant (s.uninternSymbol p symbol).2 := by
  unfold State.uninternSymbol
  cases herror : s.uninternError p symbol with
  | some e => exact h
  | none =>
    have hnot : (s.packages p).shadowingSymbols symbol.name ≠ some symbol :=
      hmeets.resolve_right fun hne => hne herror
    have hnamed := h.named p
    dsimp only
    split
    · rename_i hint
      apply h.of_removed symbol hp
      · intro n hn
        simp [SymbolTable.remove, hn]
      · simp [SymbolTable.remove]
      · exact Or.inr hint
      · rfl
      · exact hnot
      · exact ⟨hnamed.internal.remove symbol, hnamed.external, hnamed.shadowing⟩
    · split
      · rename_i hext
        apply h.of_removed symbol hp
        · intro n hn
          simp [SymbolTable.remove, hn]
        · simp [SymbolTable.remove]
        · exact Or.inl hext
        · rfl
        · exact hnot
        · exact ⟨hnamed.internal, hnamed.external.remove symbol, hnamed.shadowing⟩
      · exact h

theorem Invariant.has_of_present (h : Invariant s) (hpresent : s.present p name = some symbol) :
    symbol.name = name ∧ (s.packages p).Has symbol := by
  unfold State.present at hpresent
  unfold Package.Has
  cases hext : (s.packages p).externalSymbols name with
  | some sym =>
    rw [hext] at hpresent
    have heq : sym = symbol := by simpa using hpresent
    subst heq
    have hname := (h.named p).external name sym hext
    rw [hname]
    exact ⟨rfl, Or.inl hext⟩
  | none =>
    have hint : (s.packages p).internalSymbols name = some symbol := by
      rw [hext] at hpresent
      simpa using hpresent
    have hname := (h.named p).internal name symbol hint
    rw [hname]
    exact ⟨rfl, Or.inr hint⟩

theorem Invariant.shadow (h : Invariant s) (hp : p < s.packageCount) :
    Invariant (s.shadow p name) := by
  unfold State.shadow
  have hnamed := h.named p
  cases hpresent : s.present p name with
  | some symbol =>
    obtain ⟨hname, hhas⟩ := h.has_of_present hpresent
    subst hname
    apply h.setPackage symbol hp
    · intro n hn
      simp [SymbolTable.put, hn]
    · exact (h.coherent p).disjoint symbol.name
    · exact hhas
    · intro sym hsym _
      rw [hpresent] at hsym
      exact (Option.some.inj hsym).symm
    · intro sym hsym
      have heq : symbol = sym := by simpa [SymbolTable.put] using hsym
      exact heq.symm
    · exact ⟨hnamed.internal, hnamed.external, hnamed.shadowing.put symbol⟩
  | none =>
    obtain ⟨hext, hint⟩ := present_eq_none.1 hpresent
    cases hshadowing : (s.packages p).shadowingSymbols name with
    | some sym => simpa [hshadowing] using h
    | none =>
      simp only [hshadowing]
      apply h.freshSymbol hp hpresent
      · intro n hn
        simp [SymbolTable.put, hn]
      · exact Or.inr hext
      · simp [Package.Has, SymbolTable.put]
      · intro sym hsym
        have heq : s.freshSymbol name = sym := by simpa [SymbolTable.put] using hsym
        exact heq.symm
      · exact ⟨hnamed.internal.put _, hnamed.external, hnamed.shadowing.put _⟩

theorem Invariant.shadowingImport (h : Invariant s) (hp : p < s.packageCount)
    (hmeets : (Op.shadowingImport p symbol).KeepsTables s) :
    Invariant (s.shadowingImport p symbol) := by
  have hnamed := h.named p
  have hdisjoint := (h.coherent p).disjoint symbol.name
  unfold State.shadowingImport
  apply h.setPackage symbol hp
  · intro n hn
    cases (s.packages p).internalSymbols symbol.name <;>
      simp [SymbolTable.put, SymbolTable.remove, hn]
  · cases hint : (s.packages p).internalSymbols symbol.name with
    | none => simp [SymbolTable.remove]
    | some sym =>
      rw [hint] at hdisjoint
      exact Or.inr (hdisjoint.resolve_left (by simp))
  · cases (s.packages p).internalSymbols symbol.name <;> simp [Package.Has, SymbolTable.put]
  · intro sym hsym hhome
    exact (hmeets sym hsym).resolve_right fun hne => hne hhome
  · intro sym hsym
    have heq : symbol = sym := by
      cases hint : (s.packages p).internalSymbols symbol.name <;>
        simpa [hint, SymbolTable.put] using hsym
    exact heq.symm
  · cases (s.packages p).internalSymbols symbol.name with
    | none =>
      exact ⟨hnamed.internal.put symbol, hnamed.external.remove symbol,
        hnamed.shadowing.put symbol⟩
    | some sym =>
      exact ⟨(hnamed.internal.remove symbol).put symbol, hnamed.external,
        hnamed.shadowing.put symbol⟩

theorem sameTables_setPackage {package : Package} (hsame : (s.packages p).SameTables package)
    (q : ℕ) : (s.packages q).SameTables ((s.setPackage p package).packages q) := by
  by_cases hq : q = p
  · subst hq
    simpa using hsame
  · simp [hq, Package.SameTables]

theorem Invariant.usePackage (h : Invariant s) : Invariant (s.usePackage p q) := by
  unfold State.usePackage
  split
  · exact h
  · have hp : Invariant (s.setPackage p
        { s.packages p with useList := q :: (s.packages p).useList }) :=
      h.of_sameTables rfl rfl (sameTables_setPackage ⟨rfl, rfl, rfl⟩)
    exact hp.of_sameTables rfl rfl (sameTables_setPackage ⟨rfl, rfl, rfl⟩)

theorem Invariant.unusePackage (h : Invariant s) : Invariant (s.unusePackage p q) := by
  unfold State.unusePackage
  split
  · have hp : Invariant (s.setPackage p
        { s.packages p with useList := (s.packages p).useList.filter (· ≠ q) }) :=
      h.of_sameTables rfl rfl (sameTables_setPackage ⟨rfl, rfl, rfl⟩)
    exact hp.of_sameTables rfl rfl (sameTables_setPackage ⟨rfl, rfl, rfl⟩)
  · exact h

theorem Invariant.addNickname (h : Invariant s) (p : ℕ) (name : String) :
    Invariant (s.addNickname p name).2 := by
  have hput : Invariant (s.putName name p) :=
    h.of_sameTables rfl rfl fun q => ⟨rfl, rfl, rfl⟩
  have hpush : ∀ s : State, Invariant s → Invariant
      (if name ∈ (s.packages p).nicknames then s
      else s.setPackage p { s.packages p with nicknames := name :: (s.packages p).nicknames }) := by
    intro s hs
    split
    · exact hs
    · exact hs.of_sameTables rfl rfl (sameTables_setPackage ⟨rfl, rfl, rfl⟩)
  unfold State.addNickname
  cases s.packageMap name with
  | none => exact hpush _ hput
  | some q =>
    dsimp only
    split
    · exact h
    · exact hpush _ h

theorem Invariant.addNicknames (h : Invariant s) (p : ℕ) (nicknames : List String) :
    Invariant (s.addNicknames p nicknames).2 := by
  induction nicknames generalizing s with
  | nil => exact h
  | cons nickname rest ih =>
    have hadd := h.addNickname p nickname
    unfold State.addNicknames
    split
    · rename_i e s' heq
      rw [heq] at hadd
      exact hadd
    · rename_i s' heq
      rw [heq] at hadd
      exact ih hadd

theorem Invariant.usePackages {use : List Designator} (h : Invariant s) :
    Invariant (s.usePackages p use).2 := by
  induction use generalizing s with
  | nil => exact h
  | cons d rest ih =>
    unfold State.usePackages
    split
    · exact ih h.usePackage
    · exact h

theorem Invariant.home_ne_packageCount (h : Invariant s) : s.home symbol ≠ some s.packageCount := by
  intro hhome
  obtain ⟨hint, hext, _⟩ := h.fresh s.packageCount le_rfl
  have hhas := (h.coherent s.packageCount).has_of_home symbol hhome
  unfold Package.Has at hhas
  rw [hint, hext] at hhas
  simp [Package.new] at hhas

theorem Invariant.newPackage (h : Invariant s) (name : String) :
    Invariant (s.newPackage name) := by
  unfold State.newPackage
  constructor
  · intro p
    by_cases hp : p = s.packageCount
    · subst hp
      simp only [Function.update_self]
      constructor
      · intro n
        exact Or.inl rfl
      · intro symbol hhome
        exact absurd hhome h.home_ne_packageCount
      · intro n symbol hshadowing
        cases hshadowing
    · simpa [hp] using h.coherent p
  · intro p
    by_cases hp : p = s.packageCount
    · subst hp
      simp only [Function.update_self]
      constructor <;> (intro n symbol hsymbol; cases hsymbol)
    · simpa [hp] using h.named p
  · intro p hp
    have hlt : s.packageCount + 1 ≤ p := hp
    have hne : p ≠ s.packageCount := by omega
    simpa [hne] using h.fresh p (by omega)

theorem Invariant.makePackage {nicknames : List String} {use : List Designator}
    (h : Invariant s) : Invariant (s.makePackage name nicknames use).2 := by
  have hnew := (h.newPackage name).addNicknames s.packageCount nicknames
  unfold State.makePackage
  split
  · exact h
  · split
    · exact h
    · split
      · rename_i e s' heq
        rw [heq] at hnew
        exact hnew
      · rename_i s' heq
        rw [heq] at hnew
        exact hnew.usePackages

theorem Invariant.makeSymbol (h : Invariant s) : Invariant (s.makeSymbol name none) := by
  have hhome : ∀ symbol p, (s.makeSymbol name none).home symbol = some p →
      s.home symbol = some p := by
    intro symbol p hsymbol
    by_cases heq : symbol = s.freshSymbol name
    · simp [heq] at hsymbol
    · simpa [heq] using hsymbol
  constructor
  · intro p
    have hold := h.coherent p
    exact ⟨hold.disjoint, fun symbol hs => hold.has_of_home symbol (hhome symbol p hs),
      hold.has_of_shadowing⟩
  · exact h.named
  · exact h.fresh

theorem Invariant.exec {op : Op} (keyword : ℕ) (h : Invariant s) (hknown : op.Known s)
    (hmeets : op.KeepsTables s) : Invariant (exec keyword s op).2 := by
  cases op with
  | makeSymbol name => exact h.makeSymbol
  | makePackage name nicknames use => exact h.makePackage
  | intern p name exportp => exact h.intern keyword hknown exportp
  | importSymbol p symbol => exact h.importSymbol hknown.1 hmeets
  | exportSymbol p symbol => exact h.exportSymbol hknown.1
  | unexportSymbol p symbol => exact h.unexportSymbol hknown.1
  | uninternSymbol p symbol => exact h.uninternSymbol hknown.1 hmeets
  | shadow p name => exact h.shadow hknown
  | shadowingImport p symbol => exact h.shadowingImport hknown.1 hmeets
  | usePackage p q => exact h.usePackage
  | unusePackage p q => exact h.unusePackage
  | addNickname p nickname => exact hmeets.elim
  | renamePackage p newName newNicknames => exact hmeets.elim
  | deletePackage d => exact hmeets.elim

/-! ## Runs -/

def State.Coherent (s : State) : Prop :=
  ∀ p, (s.packages p).name ≠ none → (s.packages p).Coherent fun symbol => s.home symbol = some p

/-- **The tables stay coherent** in the runs whose steps do not forget a table. -/
theorem coherent_of_runsTo {keyword : ℕ} {s : State}
    (hrun : RunsTo keyword (fun s op => op.KeepsTables s) s) : s.Coherent := by
  have h : Invariant s := hrun.invariant invariant_initial
    fun s op h hknown hmeets => h.exec keyword hknown hmeets
  intro p _
  exact h.coherent p

def keptRun : List Op :=
  [.makePackage "A" [] [], .makePackage "B" [] [.name "A"], .intern 0 "X" false,
    .exportSymbol 0 ⟨"X", 0⟩, .importSymbol 1 ⟨"X", 0⟩, .shadow 1 "X",
    .exportSymbol 1 ⟨"X", 0⟩, .unexportSymbol 0 ⟨"X", 0⟩, .unusePackage 1 0]

theorem coherent_keptRun :
    ((runOps 2 .initial keptRun).packages 1).shadowingSymbols "X" = some ⟨"X", 0⟩ ∧
      (runOps 2 .initial keptRun).Coherent := by
  constructor
  · decide
  · apply coherent_of_runsTo
    exact RunsTo.initial.runOps (by decide)

def importTwice : List Op :=
  [.makePackage "A" [] [], .makePackage "B" [] [], .intern 1 "X" false,
    .importSymbol 0 ⟨"X", 0⟩, .exportSymbol 0 ⟨"X", 0⟩, .importSymbol 0 ⟨"X", 0⟩]

def shadowingImportOver : List Op :=
  [.makePackage "A" [] [], .intern 0 "X" false, .makeSymbol "X", .shadowingImport 0 ⟨"X", 1⟩]

def uninternShadowing : List Op :=
  [.makePackage "A" [] [], .shadow 0 "X", .uninternSymbol 0 ⟨"X", 0⟩]

/-- Each of the three branches breaks one of the clauses. -/
theorem not_coherent_of_onTables :
    [importTwice, shadowingImportOver, uninternShadowing].Forall fun ops =>
      RunsTo 2 (fun _ op => op.OnTables) (runOps 2 .initial ops) ∧
        ¬(runOps 2 .initial ops).Coherent := by
  rw [List.forall_iff_forall_mem]
  intro ops hops
  fin_cases hops
  · refine ⟨RunsTo.initial.runOps (by decide), fun h => ?_⟩
    have hdisjoint := (h 0 (by decide)).disjoint "X"
    revert hdisjoint
    decide
  · refine ⟨RunsTo.initial.runOps (by decide), fun h => ?_⟩
    have hhas := (h 0 (by decide)).has_of_home ⟨"X", 0⟩ (by decide)
    revert hhas
    decide
  · refine ⟨RunsTo.initial.runOps (by decide), fun h => ?_⟩
    have hhas := (h 0 (by decide)).has_of_shadowing "X" ⟨"X", 0⟩ (by decide)
    revert hhas
    decide

end Xcl.Packages
