import Xcl.Packages.Registry

/-!
# The objects of the registry

* `State.Allocated`: the registry speaks of packages and symbols that have been made;
* **`allocated_of_runsTo`**: it does so after every run.
-/

namespace Xcl.Packages

def State.Holds (s : State) (p : ℕ) (name : String) (symbol : Symbol) : Prop :=
  (s.packages p).externalSymbols name = some symbol ∨
    (s.packages p).internalSymbols name = some symbol

structure State.Allocated (s : State) : Prop where
  useList : ∀ p, ∀ q ∈ (s.packages p).useList, q < s.packageCount
  tables : ∀ p name symbol, s.Holds p name symbol → symbol.name = name ∧ symbol ∈ s.symbols
  number : ∀ symbol ∈ s.symbols, symbol.id < s.symbols.length
  home : ∀ symbol p, s.home symbol = some p → p < s.packageCount
  map : ∀ name p, s.packageMap name = some p → p < s.packageCount

theorem allocated_initial : State.Allocated .initial where
  useList p q hq := absurd hq List.not_mem_nil
  tables p name symbol h := by rcases h with h | h <;> cases h
  number symbol h := absurd h List.not_mem_nil
  home symbol p h := by cases h
  map name p h := by cases h

variable {s s' : State} {p q : ℕ} {symbol : Symbol} {name : String}

theorem State.Allocated.present (h : s.Allocated) (hpresent : s.present p name = some symbol) :
    symbol.name = name ∧ symbol ∈ s.symbols := by
  refine h.tables p name symbol ?_
  unfold State.present at hpresent
  unfold State.Holds
  cases hexternal : (s.packages p).externalSymbols name with
  | none =>
    rw [hexternal] at hpresent
    exact Or.inr hpresent
  | some t =>
    rw [hexternal] at hpresent
    exact Or.inl hpresent

theorem State.Allocated.step (h : s.Allocated) (hcount : s.packageCount ≤ s'.packageCount)
    (hsymbols : s'.symbols = s.symbols ∨ ∃ name, s'.symbols = s.freshSymbol name :: s.symbols)
    (huses : ∀ p, ∀ q ∈ (s'.packages p).useList,
      q ∈ (s.packages p).useList ∨ q < s'.packageCount)
    (htables : ∀ p name symbol, s'.Holds p name symbol →
      s.Holds p name symbol ∨ symbol.name = name ∧ symbol ∈ s'.symbols)
    (hhome : ∀ symbol p, s'.home symbol = some p → s.home symbol = some p ∨ p < s'.packageCount)
    (hmap : ∀ name p, s'.packageMap name = some p →
      s.packageMap name = some p ∨ p < s'.packageCount) : s'.Allocated := by
  have hmem : ∀ t ∈ s.symbols, t ∈ s'.symbols := by
    intro t ht
    rcases hsymbols with heq | ⟨name, heq⟩
    · rwa [heq]
    · rw [heq]
      exact List.mem_cons_of_mem _ ht
  refine ⟨fun p q hq => ?_, fun p name t ht => ?_, fun t ht => ?_, fun t p ht => ?_,
    fun name p hp => ?_⟩
  · rcases huses p q hq with hq | hq
    · exact (h.useList p q hq).trans_le hcount
    · exact hq
  · rcases htables p name t ht with ht | ht
    · obtain ⟨hname, ht⟩ := h.tables p name t ht
      exact ⟨hname, hmem t ht⟩
    · exact ht
  · rcases hsymbols with heq | ⟨name, heq⟩
    · rw [heq] at ht ⊢
      exact h.number t ht
    · rw [heq] at ht ⊢
      rw [List.length_cons]
      rcases List.mem_cons.1 ht with rfl | ht
      · exact Nat.lt_succ_self _
      · exact (h.number t ht).trans (Nat.lt_succ_self _)
  · rcases hhome t p ht with ht | ht
    · exact (h.home t p ht).trans_le hcount
    · exact ht
  · rcases hmap name p hp with hp | hp
    · exact (h.map name p hp).trans_le hcount
    · exact hp

theorem State.Allocated.setPackage (h : s.Allocated) {package : Package}
    (hsymbols : s'.symbols = s.symbols ∨ ∃ name, s'.symbols = s.freshSymbol name :: s.symbols)
    (hcount : s'.packageCount = s.packageCount) (hpackages : s'.packages = s.packages)
    (huses : package.useList = (s.packages p).useList)
    (htables : ∀ name symbol, package.externalSymbols name = some symbol ∨
      package.internalSymbols name = some symbol →
        s.Holds p name symbol ∨ symbol.name = name ∧ symbol ∈ s'.symbols)
    (hhome : ∀ symbol p, s'.home symbol = some p → s.home symbol = some p ∨ p < s'.packageCount)
    (hmap : s'.packageMap = s.packageMap) : (s'.setPackage p package).Allocated := by
  refine @State.Allocated.step s (s'.setPackage p package) h hcount.ge hsymbols (fun q r hr => ?_)
    (fun q name t ht => ?_) hhome fun name q hq => Or.inl (hmap ▸ hq)
  · by_cases hq : q = p
    · subst hq
      rw [State.setPackage_packages, Function.update_self, huses] at hr
      exact Or.inl hr
    · rw [State.setPackage_packages, Function.update_of_ne hq, hpackages] at hr
      exact Or.inl hr
  · unfold State.Holds at ht
    by_cases hq : q = p
    · subst hq
      rw [State.setPackage_packages, Function.update_self] at ht
      exact htables name t ht
    · rw [State.setPackage_packages, Function.update_of_ne hq, hpackages] at ht
      exact Or.inl ht

theorem SymbolTable.of_put {table : SymbolTable} {t : Symbol}
    (h : table.put symbol name = some t) : table name = some t ∨ t = symbol ∧ symbol.name = name :=
      by
  unfold SymbolTable.put at h
  by_cases hname : name = symbol.name
  · rw [hname, Function.update_self] at h
    exact Or.inr ⟨(Option.some.inj h).symm, hname.symm⟩
  · rw [Function.update_of_ne hname] at h
    exact Or.inl h

theorem SymbolTable.of_remove {table : SymbolTable} {t : Symbol}
    (h : table.remove symbol name = some t) : table name = some t := by
  unfold SymbolTable.remove at h
  by_cases hname : name = symbol.name
  · rw [hname, Function.update_self] at h
    cases h
  · rwa [Function.update_of_ne hname] at h

/-! ## Operations on the tables -/

theorem State.Allocated.setTables (h : s.Allocated) {package : Package}
    (hsymbol : symbol ∈ s.symbols) (huses : package.useList = (s.packages p).useList)
    (htables : ∀ name t, package.externalSymbols name = some t ∨
      package.internalSymbols name = some t → s.Holds p name t ∨ t = symbol ∧ symbol.name = name) :
    (s.setPackage p package).Allocated := by
  refine h.setPackage (Or.inl rfl) rfl rfl huses (fun name t ht => ?_) (fun _ _ => Or.inl) rfl
  rcases htables name t ht with ht | ⟨rfl, hname⟩
  · exact Or.inl ht
  · exact Or.inr ⟨hname, hsymbol⟩

theorem State.Allocated.setHome (h : s.Allocated) {home : Option ℕ}
    (hp : ∀ p, home = some p → p < s.packageCount) : (s.setHome symbol home).Allocated := by
  refine h.step le_rfl (Or.inl rfl) (fun _ _ => Or.inl) (fun _ _ _ => Or.inl) (fun t q ht => ?_)
    fun _ _ => Or.inl
  rw [State.setHome_home] at ht
  by_cases heq : t = symbol
  · rw [heq, Function.update_self] at ht
    exact Or.inr (hp q ht)
  · rw [Function.update_of_ne heq] at ht
    exact Or.inl ht

theorem State.Allocated.makeSymbol (h : s.Allocated) {home : Option ℕ}
    (hp : ∀ p, home = some p → p < s.packageCount) : (s.makeSymbol name home).Allocated := by
  refine h.step le_rfl (Or.inr ⟨name, rfl⟩) (fun _ _ => Or.inl) (fun _ _ _ => Or.inl)
    (fun t q ht => ?_) fun _ _ => Or.inl
  rw [State.makeSymbol_home] at ht
  by_cases heq : t = s.freshSymbol name
  · rw [heq, Function.update_self] at ht
    exact Or.inr (hp q ht)
  · rw [Function.update_of_ne heq] at ht
    exact Or.inl ht

theorem State.Allocated.intern (h : s.Allocated) (keyword : ℕ) (hp : p < s.packageCount)
    (exportp : Bool) : (s.intern keyword p name exportp).Allocated := by
  unfold State.intern
  split
  · exact h
  have hmade : (s.makeSymbol name (some p)).Allocated :=
    h.makeSymbol fun q hq => Option.some.inj hq ▸ hp
  have hmem : s.freshSymbol name ∈ (s.makeSymbol name (some p)).symbols := List.mem_cons_self
  refine hmade.setTables hmem ?_ fun n t ht => ?_
  · split <;> rfl
  · split at ht
    · rcases ht with ht | ht
      · exact (SymbolTable.of_put ht).imp Or.inl id
      · exact Or.inl (Or.inr ht)
    · rcases ht with ht | ht
      · exact Or.inl (Or.inl ht)
      · exact (SymbolTable.of_put ht).imp Or.inr id

theorem State.Allocated.importSymbol (h : s.Allocated) (hp : p < s.packageCount)
    (hsymbol : symbol ∈ s.symbols) : (s.importSymbol p symbol).2.Allocated := by
  have himported : (s.setPackage p { s.packages p with
      internalSymbols := (s.packages p).internalSymbols.put symbol }).Allocated := by
    refine h.setTables hsymbol rfl fun n t ht => ?_
    rcases ht with ht | ht
    · exact Or.inl (Or.inl ht)
    · exact (SymbolTable.of_put ht).imp Or.inr id
  unfold State.importSymbol
  dsimp only
  split
  · exact h
  · split
    · exact h
    · split
      · exact himported.setHome fun q hq => Option.some.inj hq ▸ hp
      · exact himported

theorem State.Allocated.makeExternal (h : s.Allocated) (hsymbol : symbol ∈ s.symbols) :
    (s.makeExternal p symbol).Allocated := by
  refine h.setTables hsymbol rfl fun n t ht => ?_
  rcases ht with ht | ht
  · exact (SymbolTable.of_put ht).imp Or.inl id
  · exact Or.inl (Or.inr (SymbolTable.of_remove ht))

theorem State.Allocated.exportSymbol (h : s.Allocated) (hsymbol : symbol ∈ s.symbols) :
    (s.exportSymbol p symbol).2.Allocated := by
  unfold State.exportSymbol
  split
  · exact h
  · split
    · split
      · exact h
      · exact h.makeExternal hsymbol
    · split
      · exact h
      · exact h.makeExternal hsymbol

theorem State.Allocated.unexportSymbol (h : s.Allocated) (hsymbol : symbol ∈ s.symbols) :
    (s.unexportSymbol p symbol).2.Allocated := by
  unfold State.unexportSymbol
  dsimp only
  split
  · split
    · refine h.setTables hsymbol rfl fun n t ht => ?_
      rcases ht with ht | ht
      · exact Or.inl (Or.inl (SymbolTable.of_remove ht))
      · exact (SymbolTable.of_put ht).imp Or.inr id
    · exact h
  · split <;> exact h

theorem State.Allocated.uninternSymbol (h : s.Allocated) (hsymbol : symbol ∈ s.symbols) :
    (s.uninternSymbol p symbol).2.Allocated := by
  have hhome : (if s.home symbol = some p then s.setHome symbol none else s).Allocated := by
    split
    · exact h.setHome nofun
    · exact h
  have hpackages : (if s.home symbol = some p then s.setHome symbol none else s).packages =
      s.packages := by split <;> rfl
  have hsymbols : symbol ∈
      (if s.home symbol = some p then s.setHome symbol none else s).symbols := by
    split <;> exact hsymbol
  unfold State.uninternSymbol
  split
  · exact h
  dsimp only
  split
  · refine hhome.setTables hsymbols (by rw [hpackages]) fun n t ht => Or.inl ?_
    unfold State.Holds
    rw [hpackages]
    exact ht.imp id SymbolTable.of_remove
  · split
    · refine hhome.setTables hsymbols (by rw [hpackages]) fun n t ht => Or.inl ?_
      unfold State.Holds
      rw [hpackages]
      exact ht.imp SymbolTable.of_remove id
    · exact h

theorem State.Allocated.shadow (h : s.Allocated) (hp : p < s.packageCount) :
    (s.shadow p name).Allocated := by
  unfold State.shadow
  dsimp only
  cases hpresent : s.present p name with
  | some symbol => exact h.setTables (h.present hpresent).2 rfl fun n t => Or.inl
  | none =>
    dsimp only
    split
    · exact h
    have hmade : (s.makeSymbol name (some p)).Allocated :=
      h.makeSymbol fun q hq => Option.some.inj hq ▸ hp
    have hmem : s.freshSymbol name ∈ (s.makeSymbol name (some p)).symbols := List.mem_cons_self
    refine hmade.setTables hmem rfl fun n t ht => ?_
    rcases ht with ht | ht
    · exact Or.inl (Or.inl ht)
    · exact (SymbolTable.of_put ht).imp Or.inr id

theorem State.Allocated.shadowingImport (h : s.Allocated) (hsymbol : symbol ∈ s.symbols) :
    (s.shadowingImport p symbol).Allocated := by
  unfold State.shadowingImport
  dsimp only
  cases (s.packages p).internalSymbols symbol.name with
  | some _ =>
    refine h.setTables hsymbol rfl fun n t ht => ?_
    rcases ht with ht | ht
    · exact Or.inl (Or.inl ht)
    · exact (SymbolTable.of_put ht).imp (fun ht => Or.inr (SymbolTable.of_remove ht)) id
  | none =>
    refine h.setTables hsymbol rfl fun n t ht => ?_
    rcases ht with ht | ht
    · exact Or.inl (Or.inl (SymbolTable.of_remove ht))
    · exact (SymbolTable.of_put ht).imp Or.inr id

/-! ## Operations on the packages -/

theorem State.Allocated.congr (h : s.Allocated) (hcount : s.packageCount ≤ s'.packageCount)
    (hsymbols : s'.symbols = s.symbols) (hhome : s'.home = s.home)
    (hpackages : ∀ p, (s'.packages p).externalSymbols = (s.packages p).externalSymbols ∧
      (s'.packages p).internalSymbols = (s.packages p).internalSymbols ∧
      ∀ q ∈ (s'.packages p).useList, q ∈ (s.packages p).useList ∨ q < s'.packageCount)
    (hmap : ∀ name p, s'.packageMap name = some p →
      s.packageMap name = some p ∨ p < s'.packageCount) : s'.Allocated := by
  refine h.step hcount (Or.inl hsymbols) (fun p => (hpackages p).2.2) (fun p name t ht => ?_)
    (fun t p ht => Or.inl (hhome ▸ ht)) hmap
  unfold State.Holds at ht
  rw [(hpackages p).1, (hpackages p).2.1] at ht
  exact Or.inl ht

theorem State.Allocated.putName (h : s.Allocated) (hp : p < s.packageCount) :
    (s.putName name p).Allocated := by
  refine h.congr le_rfl rfl rfl (fun _ => ⟨rfl, rfl, fun _ => Or.inl⟩) fun n q hq => ?_
  change Function.update s.packageMap name (some p) n = some q at hq
  by_cases hn : n = name
  · rw [hn, Function.update_self] at hq
    exact Or.inr (Option.some.inj hq ▸ hp)
  · rw [Function.update_of_ne hn] at hq
    exact Or.inl hq

theorem State.Allocated.setNames (h : s.Allocated) {package : Package}
    (hsame : package.externalSymbols = (s.packages p).externalSymbols ∧
      package.internalSymbols = (s.packages p).internalSymbols ∧
      package.useList = (s.packages p).useList) : (s.setPackage p package).Allocated := by
  refine h.setPackage (Or.inl rfl) rfl rfl hsame.2.2 (fun name t ht => Or.inl ?_)
    (fun _ _ => Or.inl) rfl
  rwa [hsame.1, hsame.2.1] at ht

theorem State.Allocated.usePackage (h : s.Allocated) (hq : q < s.packageCount) :
    (s.usePackage p q).Allocated := by
  unfold State.usePackage
  split
  · exact h
  have huses : (s.setPackage p { s.packages p with
      useList := q :: (s.packages p).useList }).Allocated := by
    refine h.congr le_rfl rfl rfl (fun p' => ?_) fun _ _ => Or.inl
    by_cases heq : p' = p
    · subst heq
      rw [State.setPackage_packages, Function.update_self]
      refine ⟨rfl, rfl, fun q' hq' => ?_⟩
      rcases List.mem_cons.1 hq' with rfl | hq'
      · exact Or.inr hq
      · exact Or.inl hq'
    · rw [State.setPackage_packages, Function.update_of_ne heq]
      exact ⟨rfl, rfl, fun _ => Or.inl⟩
  exact huses.setNames ⟨rfl, rfl, rfl⟩

theorem State.Allocated.unusePackage (h : s.Allocated) : (s.unusePackage p q).Allocated := by
  unfold State.unusePackage
  split
  · have huses : (s.setPackage p { s.packages p with
        useList := (s.packages p).useList.filter (· ≠ q) }).Allocated := by
      refine h.congr le_rfl rfl rfl (fun p' => ?_) fun _ _ => Or.inl
      by_cases heq : p' = p
      · subst heq
        rw [State.setPackage_packages, Function.update_self]
        exact ⟨rfl, rfl, fun q' hq' => Or.inl (List.mem_of_mem_filter hq')⟩
      · rw [State.setPackage_packages, Function.update_of_ne heq]
        exact ⟨rfl, rfl, fun _ => Or.inl⟩
    exact huses.setNames ⟨rfl, rfl, rfl⟩
  · exact h

theorem addNickname_packageCount : (s.addNickname p name).2.packageCount = s.packageCount := by
  unfold State.addNickname
  dsimp only
  split
  · split <;> rfl
  · split
    · rfl
    · split <;> rfl

theorem State.Allocated.addNickname (h : s.Allocated) (hp : p < s.packageCount) :
    (s.addNickname p name).2.Allocated := by
  have hpush : ∀ {s : State}, s.Allocated → (if name ∈ (s.packages p).nicknames then s
      else s.setPackage p { s.packages p with
        nicknames := name :: (s.packages p).nicknames }).Allocated := by
    intro s h
    split
    · exact h
    · exact h.setNames ⟨rfl, rfl, rfl⟩
  unfold State.addNickname
  dsimp only
  split
  · exact hpush (h.putName hp)
  · split
    · exact h
    · exact hpush h

theorem State.Allocated.addNicknames (nicknames : List String) (h : s.Allocated)
    (hp : p < s.packageCount) : (s.addNicknames p nicknames).2.Allocated ∧
      (s.addNicknames p nicknames).2.packageCount = s.packageCount := by
  induction nicknames generalizing s with
  | nil => exact ⟨h, rfl⟩
  | cons nickname rest ih =>
    have hstep : (s.addNickname p nickname).2.Allocated := h.addNickname hp
    have hcount : (s.addNickname p nickname).2.packageCount = s.packageCount :=
      addNickname_packageCount
    unfold State.addNicknames
    split
    · rename_i heq
      rw [heq] at hstep hcount
      exact ⟨hstep, hcount⟩
    · rename_i heq
      rw [heq] at hstep hcount
      obtain ⟨hrest, hcount'⟩ := ih hstep (hcount ▸ hp)
      exact ⟨hrest, hcount'.trans hcount⟩

theorem usePackage_packageCount : (s.usePackage p q).packageCount = s.packageCount := by
  unfold State.usePackage
  split <;> rfl

theorem State.Allocated.usePackages (use : List Designator) (h : s.Allocated)
    (hknown : ∀ p, .package p ∈ use → p < s.packageCount) : (s.usePackages p use).2.Allocated := by
  induction use generalizing s with
  | nil => exact h
  | cons d rest ih =>
    unfold State.usePackages
    split
    · rename_i q hq
      have hlt : q < s.packageCount := by
        cases d with
        | package q' =>
          obtain rfl := Option.some.inj hq
          exact hknown q' List.mem_cons_self
        | name n => exact h.map n q hq
      refine ih (h.usePackage hlt) fun p' hp' => ?_
      rw [usePackage_packageCount]
      exact hknown p' (List.mem_cons_of_mem _ hp')
    · exact h

theorem State.Allocated.newPackage (h : s.Allocated) : (s.newPackage name).Allocated := by
  have hnew : ∀ p, (s.newPackage name).packages p =
      if p = s.packageCount then .new (some name) else s.packages p := fun p =>
    Function.update_apply ..
  refine h.step (Nat.le_succ _) (Or.inl rfl) (fun p q hq => ?_) (fun p n t ht => ?_)
    (fun _ _ => Or.inl) fun n p hp => ?_
  · rw [hnew] at hq
    split at hq
    · exact absurd hq List.not_mem_nil
    · exact Or.inl hq
  · unfold State.Holds at ht
    rw [hnew] at ht
    split at ht
    · rcases ht with ht | ht <;> cases ht
    · exact Or.inl ht
  · change Function.update s.packageMap name (some s.packageCount) n = some p at hp
    by_cases hn : n = name
    · rw [hn, Function.update_self] at hp
      exact Or.inr (Option.some.inj hp ▸ Nat.lt_succ_self _)
    · rw [Function.update_of_ne hn] at hp
      exact Or.inl hp

theorem State.Allocated.makePackage (nicknames : List String) (use : List Designator)
    (h : s.Allocated) (hknown : ∀ p, .package p ∈ use → p < s.packageCount) :
    (s.makePackage name nicknames use).2.Allocated := by
  unfold State.makePackage
  split
  · exact h
  split
  · exact h
  have hnew : (s.newPackage name).Allocated := h.newPackage
  obtain ⟨hnamed, hcount⟩ := hnew.addNicknames nicknames (Nat.lt_succ_self s.packageCount)
  split
  · rename_i heq
    rw [heq] at hnamed
    exact hnamed
  · rename_i heq
    rw [heq] at hnamed hcount
    refine hnamed.usePackages use fun p hp => ?_
    rw [hcount]
    exact (hknown p hp).trans (Nat.lt_succ_self _)

theorem State.Allocated.removeNames (h : s.Allocated) : (s.removeNames p).Allocated := by
  rw [removeNames_eq]
  refine h.congr le_rfl rfl rfl (fun _ => ⟨rfl, rfl, fun _ => Or.inl⟩) fun n q hq => Or.inl ?_
  dsimp only at hq
  split at hq
  · cases hq
  · exact hq

theorem removeNames_packageCount : (s.removeNames p).packageCount = s.packageCount := by
  rw [removeNames_eq]

theorem State.Allocated.renamePackage (newNicknames : List String) (h : s.Allocated)
    (hp : p < s.packageCount) : (s.renamePackage p name newNicknames).2.Allocated := by
  have hremoved := h.removeNames (p := p)
  have hp' : p < (s.removeNames p).packageCount := removeNames_packageCount (s := s) ▸ hp
  unfold State.renamePackage
  split
  · exact h
  dsimp only
  rw [foldl_pushNickname]
  have hput : ((s.removeNames p).putName name p).Allocated := hremoved.putName hp'
  have hrenamed : (((s.removeNames p).putName name p).setPackage p
      { s.packages p with name := some name, nicknames := [] }).Allocated := by
    apply hput.setNames
    rw [removeNames_eq]
    exact ⟨rfl, rfl, rfl⟩
  refine hrenamed.congr le_rfl rfl rfl (fun q => ?_) fun n q hq => ?_
  · by_cases hq : q = p
    · subst hq
      dsimp only
      rw [Function.update_self]
      exact ⟨rfl, rfl, fun _ => Or.inl⟩
    · dsimp only
      rw [Function.update_of_ne hq]
      exact ⟨rfl, rfl, fun _ => Or.inl⟩
  · dsimp only at hq
    split at hq
    · exact Or.inr (Option.some.inj hq ▸ hp')
    · exact Or.inl hq

theorem State.Allocated.deletePackageInternal (h : s.Allocated) :
    (s.deletePackageInternal p).Allocated := by
  unfold State.deletePackageInternal
  split
  · exact h
  dsimp only
  refine (h.removeNames (p := p)).step le_rfl (Or.inl rfl) (fun q r hr => Or.inl ?_)
    (fun q n t ht => Or.inl ?_) (fun t q ht => Or.inl ?_) fun _ _ => Or.inl
  · rw [removeNames_eq]
    dsimp only at hr ⊢
    by_cases hq : q = p
    · subst hq
      rw [Function.update_self] at hr
      exact hr
    · rw [Function.update_of_ne hq] at hr
      exact hr
  · unfold State.Holds at ht ⊢
    rw [removeNames_eq]
    dsimp only at ht ⊢
    by_cases hq : q = p
    · subst hq
      rw [Function.update_self] at ht
      rcases ht with ht | ht <;> cases ht
    · rw [Function.update_of_ne hq] at ht
      exact ht
  · rw [removeNames_eq]
    dsimp only at ht ⊢
    split at ht
    · cases ht
    · exact ht

theorem State.Allocated.deletePackage (d : Designator) (h : s.Allocated) :
    (s.deletePackage d).2.Allocated := by
  unfold State.deletePackage
  split
  · exact h.deletePackageInternal
  · exact h

/-! ## Runs -/

theorem State.Allocated.exec {op : Op} (keyword : ℕ) (h : s.Allocated) (hknown : op.Known s) :
    (Packages.exec keyword s op).2.Allocated := by
  cases op with
  | makeSymbol name => exact h.makeSymbol nofun
  | makePackage name nicknames use =>
    exact h.makePackage nicknames use fun p hp => hknown _ hp
  | intern p name exportp => exact h.intern keyword hknown exportp
  | importSymbol p symbol => exact h.importSymbol hknown.1 hknown.2
  | exportSymbol p symbol => exact h.exportSymbol hknown.2
  | unexportSymbol p symbol => exact h.unexportSymbol hknown.2
  | uninternSymbol p symbol => exact h.uninternSymbol hknown.2
  | shadow p name => exact h.shadow hknown
  | shadowingImport p symbol => exact h.shadowingImport hknown.2
  | usePackage p q => exact h.usePackage hknown.2
  | unusePackage p q => exact h.unusePackage
  | addNickname p nickname => exact h.addNickname hknown
  | renamePackage p newName newNicknames => exact h.renamePackage newNicknames hknown
  | deletePackage d => exact h.deletePackage d

/-- **The registry speaks of objects that have been made.** -/
theorem allocated_of_runsTo {keyword : ℕ} {meets : State → Op → Prop}
    (hrun : RunsTo keyword meets s) : s.Allocated :=
  hrun.invariant allocated_initial fun _ _ h hknown _ => h.exec keyword hknown

theorem allocated_internedRun :
    (runOps 2 .initial [.makePackage "A" [] [], .intern 0 "X" false]).Allocated := by
  have hrun : RunsTo 2 (fun _ _ => True)
      (runOps 2 .initial [.makePackage "A" [] [], .intern 0 "X" false]) :=
    RunsTo.initial.runOps (by decide)
  exact allocated_of_runsTo hrun

end Xcl.Packages
