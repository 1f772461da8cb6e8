import Xcl.Packages.Model
import Mathlib.Tactic

/-!
# The registry of packages

* `State.Registered`: the map of names, the list of all packages and the lists of used and using
  packages agree;
* **`registered_of_runsTo`**: the registry is coherent in every state of a run of such steps.
-/

namespace Xcl.Packages

variable {s s' : State} {p q r : ℕ} {name n : String}

/-- The package has not been deleted. -/
def State.Live (s : State) (p : ℕ) : Prop := (s.packages p).name ≠ none

instance (s : State) (p : ℕ) : Decidable (s.Live p) :=
  inferInstanceAs (Decidable (¬_))

def Package.HasName (package : Package) (n : String) : Prop :=
  package.name = some n ∨ n ∈ package.nicknames

instance (package : Package) (n : String) : Decidable (package.HasName n) :=
  inferInstanceAs (Decidable (_ ∨ _))

structure State.Registered (s : State) : Prop where
  map : ∀ n p, s.packageMap n = some p ↔ p ∈ s.allPackages ∧ (s.packages p).HasName n
  inverse : ∀ p q, q ∈ (s.packages p).useList ↔ p ∈ (s.packages q).usedByList
  live : ∀ p q, s.Live p → q ∈ (s.packages p).useList ∨ q ∈ (s.packages p).usedByList → s.Live q

/-- The operations on packages. -/
def Op.OnRegistry : Op → Prop
  | .makePackage _ _ _ | .usePackage _ _ | .unusePackage _ _ | .addNickname _ _
  | .renamePackage _ _ _ | .deletePackage _ => True
  | _ => False

instance : DecidablePred Op.OnRegistry
  | .makePackage _ _ _ | .usePackage _ _ | .unusePackage _ _ | .addNickname _ _
  | .renamePackage _ _ _ | .deletePackage _ => inferInstanceAs (Decidable True)
  | .makeSymbol _ | .intern _ _ _ | .importSymbol _ _ | .exportSymbol _ _ | .unexportSymbol _ _
  | .uninternSymbol _ _ | .shadow _ _ | .shadowingImport _ _ => inferInstanceAs (Decidable False)

/-- The designator is not a deleted package object. -/
def Designator.Live (s : State) : Designator → Prop
  | .package q => s.Live q
  | .name _ => True

instance (s : State) : DecidablePred (Designator.Live s)
  | .package q => inferInstanceAs (Decidable (s.Live q))
  | .name _ => inferInstanceAs (Decidable True)

def Op.KeepsRegistry (s : State) : Op → Prop
  | .makePackage name nicknames use =>
    (∀ d ∈ use, d.Live s) ∨ (∃ n ∈ name :: nicknames, s.packageMap n ≠ none) ∨
      ∃ d ∈ use, s.coerceToPackage d = none
  | .usePackage p q => s.Live p ↔ s.Live q
  | .unusePackage _ _ => True
  | .addNickname p nickname => s.Live p ∨ s.packageMap nickname ≠ none
  | .renamePackage p newName newNicknames =>
    s.Live p ∨ ∃ n ∈ newName :: newNicknames, (s.packageMap n).any (· ≠ p)
  | .deletePackage d => ∀ p ∈ s.deletionTarget d, s.Live p →
    ∀ q ∈ (s.packages p).useList ++ (s.packages p).usedByList, q = p ∨ ¬s.Live q
  | _ => False

instance (s : State) : DecidablePred (Op.KeepsRegistry s)
  | .makePackage _ _ _ => inferInstanceAs (Decidable (_ ∨ _ ∨ _))
  | .usePackage _ _ => inferInstanceAs (Decidable (_ ↔ _))
  | .unusePackage _ _ => inferInstanceAs (Decidable True)
  | .addNickname _ _ | .renamePackage _ _ _ => inferInstanceAs (Decidable (_ ∨ _))
  | .deletePackage d => inferInstanceAs (Decidable (∀ p ∈ s.deletionTarget d, _ → _))
  | .makeSymbol _ | .intern _ _ _ | .importSymbol _ _ | .exportSymbol _ _ | .unexportSymbol _ _
  | .uninternSymbol _ _ | .shadow _ _ | .shadowingImport _ _ => inferInstanceAs (Decidable False)

/-! ## The invariant -/

/-- What the steps of a run keep. -/
structure Registry (s : State) : Prop where
  map : ∀ n p, s.packageMap n = some p ↔ s.Live p ∧ (s.packages p).HasName n
  all : ∀ p, p ∈ s.allPackages ↔ s.Live p
  inverse : ∀ p q, q ∈ (s.packages p).useList ↔ p ∈ (s.packages q).usedByList
  live : ∀ p q, q ∈ (s.packages p).useList → (s.Live p ↔ s.Live q)
  fresh : ∀ p, s.packageCount ≤ p → s.packages p = .new none

theorem registry_initial : Registry .initial where
  map n p := by simp [State.initial, State.Live, Package.new]
  all p := by simp [State.initial, State.Live, Package.new]
  inverse p q := by simp [State.initial, Package.new]
  live p q h := by simp [State.initial, Package.new] at h
  fresh p _ := rfl

theorem Registry.registered (h : Registry s) : s.Registered where
  map n p := by rw [h.map, h.all]
  inverse := h.inverse
  live p q hp hq := by
    rcases hq with huse | hused
    · exact (h.live p q huse).1 hp
    · exact (h.live q p ((h.inverse q p).2 hused)).2 hp

theorem Registry.lt_of_live (h : Registry s) (hp : s.Live p) : p < s.packageCount := by
  by_contra hge
  apply hp
  rw [h.fresh p (by omega)]
  rfl

/-! ## Using and unusing -/

theorem Registry.of_lists (h : Registry s) (hmap : s'.packageMap = s.packageMap)
    (hall : s'.allPackages = s.allPackages) (hcount : s'.packageCount = s.packageCount)
    (hname : ∀ q, (s'.packages q).name = (s.packages q).name)
    (hnicknames : ∀ q, (s'.packages q).nicknames = (s.packages q).nicknames)
    (hinverse : ∀ p q, q ∈ (s'.packages p).useList ↔ p ∈ (s'.packages q).usedByList)
    (hlive : ∀ p q, q ∈ (s'.packages p).useList → (s.Live p ↔ s.Live q))
    (hfresh : ∀ q, s.packageCount ≤ q → s'.packages q = s.packages q) : Registry s' := by
  have hlives : ∀ q, s'.Live q ↔ s.Live q := by
    intro q
    unfold State.Live
    rw [hname q]
  constructor
  · intro n q
    unfold Package.HasName
    rw [hmap, hlives, hname, hnicknames]
    exact h.map n q
  · intro q
    rw [hall, hlives]
    exact h.all q
  · exact hinverse
  · intro q q' huse
    rw [hlives, hlives]
    exact hlive q q' huse
  · intro q hq
    rw [hcount] at hq
    rw [hfresh q hq]
    exact h.fresh q hq

theorem usePackage_name (q : ℕ) : ((s.usePackage p r).packages q).name = (s.packages q).name ∧
    ((s.usePackage p r).packages q).nicknames = (s.packages q).nicknames := by
  unfold State.usePackage
  split
  · exact ⟨rfl, rfl⟩
  · by_cases hq : q = r <;> by_cases hp : q = p <;> by_cases hrp : r = p <;> simp_all

theorem unusePackage_name (q : ℕ) : ((s.unusePackage p r).packages q).name = (s.packages q).name ∧
    ((s.unusePackage p r).packages q).nicknames = (s.packages q).nicknames := by
  unfold State.unusePackage
  split
  · by_cases hq : q = r <;> by_cases hp : q = p <;> by_cases hrp : r = p <;> simp_all
  · exact ⟨rfl, rfl⟩

theorem Registry.usePackage (h : Registry s) (hp : p < s.packageCount) (hr : r < s.packageCount)
    (hlive : s.Live p ↔ s.Live r) : Registry (s.usePackage p r) := by
  by_cases hused : r ∈ (s.packages p).useList
  · simpa [State.usePackage, hused] using h
  apply h.of_lists
  · simp [State.usePackage, hused, State.setPackage]
  · simp [State.usePackage, hused, State.setPackage]
  · simp [State.usePackage, hused]
  · exact fun q => (usePackage_name q).1
  · exact fun q => (usePackage_name q).2
  · intro q q'
    rw [State.usePackage_useList hused, State.usePackage_usedByList hused]
    have hold := h.inverse q q'
    by_cases hq : q = p <;> by_cases hq' : q' = r <;> simp_all
  · intro q q' huse
    rw [State.usePackage_useList hused] at huse
    by_cases hq : q = p
    · subst hq
      rw [if_pos rfl, List.mem_cons] at huse
      rcases huse with rfl | huse
      · exact hlive
      · exact h.live q q' huse
    · rw [if_neg hq] at huse
      exact h.live q q' huse
  · intro q hq
    have hqp : q ≠ p := by omega
    have hqr : q ≠ r := by omega
    simp [State.usePackage, hused, hqp, hqr]

theorem Registry.unusePackage (h : Registry s) (hp : p < s.packageCount)
    (hr : r < s.packageCount) : Registry (s.unusePackage p r) := by
  by_cases hused : r ∈ (s.packages p).useList
  · apply h.of_lists
    · simp [State.unusePackage, hused, State.setPackage]
    · simp [State.unusePackage, hused, State.setPackage]
    · simp [State.unusePackage, hused]
    · exact fun q => (unusePackage_name q).1
    · exact fun q => (unusePackage_name q).2
    · intro q q'
      rw [State.unusePackage_useList hused, State.unusePackage_usedByList hused]
      have hold := h.inverse q q'
      by_cases hq : q = p <;> by_cases hq' : q' = r <;> simp_all
    · intro q q' huse
      apply h.live q q'
      rw [State.unusePackage_useList hused] at huse
      by_cases hq : q = p
      · subst hq
        rw [if_pos rfl] at huse
        exact List.mem_of_mem_filter huse
      · rw [if_neg hq] at huse
        exact huse
    · intro q hq
      have hqp : q ≠ p := by omega
      have hqr : q ≠ r := by omega
      simp [State.unusePackage, hused, hqp, hqr]
  · simpa [State.unusePackage, hused] using h

/-! ## Names -/

/-- Everything but the names of `p` and the map. -/
structure SameLists (s s' : State) (p : ℕ) : Prop where
  count : s'.packageCount = s.packageCount
  other : ∀ q, q ≠ p → s'.packages q = s.packages q
  useList : (s'.packages p).useList = (s.packages p).useList
  usedByList : (s'.packages p).usedByList = (s.packages p).usedByList

theorem SameLists.useList_eq (h : SameLists s s' p) (q : ℕ) :
    (s'.packages q).useList = (s.packages q).useList := by
  by_cases hq : q = p
  · subst hq
    exact h.useList
  · rw [h.other q hq]

theorem SameLists.usedByList_eq (h : SameLists s s' p) (q : ℕ) :
    (s'.packages q).usedByList = (s.packages q).usedByList := by
  by_cases hq : q = p
  · subst hq
    exact h.usedByList
  · rw [h.other q hq]

theorem Registry.of_names (h : Registry s) (hlists : SameLists s s' p) (hp : s.Live p)
    (hp' : s'.Live p) (hall : s'.allPackages = s.allPackages)
    (hmap : ∀ n q, s'.packageMap n = some q ↔
      if q = p then (s'.packages p).HasName n else s.packageMap n = some q) : Registry s' := by
  have hlives : ∀ q, s'.Live q ↔ s.Live q := by
    intro q
    by_cases hq : q = p
    · subst hq
      exact ⟨fun _ => hp, fun _ => hp'⟩
    · unfold State.Live
      rw [hlists.other q hq]
  constructor
  · intro n q
    rw [hmap, hlives]
    by_cases hq : q = p
    · subst hq
      simp [hp]
    · rw [if_neg hq, hlists.other q hq]
      exact h.map n q
  · intro q
    rw [hall, hlives]
    exact h.all q
  · intro q q'
    rw [hlists.useList_eq, hlists.usedByList_eq]
    exact h.inverse q q'
  · intro q q' huse
    rw [hlives, hlives]
    rw [hlists.useList_eq] at huse
    exact h.live q q' huse
  · intro q hq
    rw [hlists.count] at hq
    have hlt := h.lt_of_live hp
    rw [hlists.other q (by omega)]
    exact h.fresh q hq

theorem Registry.addNickname (h : Registry s) (hp : s.Live p ∨ s.packageMap name ≠ none) :
    Registry (s.addNickname p name).2 := by
  have hpush : s.Live p → (∀ q, s.packageMap name = some q → q = p) →
      ∀ s', s'.packages = s.packages → s'.packageCount = s.packageCount →
      s'.allPackages = s.allPackages →
      (∀ n, s'.packageMap n = if n = name then some p else s.packageMap n) →
      Registry (if name ∈ (s'.packages p).nicknames then s'
        else s'.setPackage p
          { s'.packages p with nicknames := name :: (s'.packages p).nicknames }) := by
    intro hlive hfree s' hpackages hcount hall hmap
    have hnames : ∀ package : Package, package.name = (s.packages p).name →
        (∀ n, n ∈ package.nicknames ↔ n = name ∨ n ∈ (s.packages p).nicknames) →
        ∀ n q, s'.packageMap n = some q ↔
          if q = p then package.HasName n else s.packageMap n = some q := by
      intro package hname hnicknames n q
      have hold := h.map n p
      unfold Package.HasName at hold ⊢
      rw [hmap, hname, hnicknames]
      by_cases hn : n = name
      · subst hn
        by_cases hq : q = p
        · simp [hq]
        · have hne : s.packageMap n ≠ some q := fun heq => hq (hfree q heq)
          simp [hq, hne, Ne.symm hq]
      · by_cases hq : q = p
        · simp [hq, hn, hold, hlive]
        · simp [hq, hn]
    split
    · rename_i hmem
      refine h.of_names ⟨hcount, fun q _ => by rw [hpackages], by rw [hpackages],
        by rw [hpackages]⟩ hlive (by unfold State.Live; rw [hpackages]; exact hlive) hall ?_
      apply hnames
      · rw [hpackages]
      · intro n
        rw [hpackages] at hmem ⊢
        constructor
        · exact Or.inr
        · rintro (rfl | hn)
          · exact hmem
          · exact hn
    · refine h.of_names ⟨hcount, fun q hq => by simp [hq, hpackages], by simp [hpackages],
        by simp [hpackages]⟩ hlive (by simpa [State.Live, hpackages] using hlive) hall ?_
      apply hnames
      · simp [hpackages]
      · intro n
        simp [hpackages]
  unfold State.addNickname
  cases hmap : s.packageMap name with
  | none =>
    have hlive : s.Live p := hp.resolve_right fun hne => hne hmap
    refine hpush hlive (fun q hq => ?_) _ rfl rfl rfl fun n => ?_
    · rw [hmap] at hq
      cases hq
    · simp [State.putName, Function.update_apply]
  | some q =>
    dsimp only
    split
    · exact h
    · rename_i hq
      have heq : q = p := by simpa using hq
      subst heq
      refine hpush ((h.map name q).1 hmap).1 (fun q' hq' => ?_) s rfl rfl rfl fun n => ?_
      · rw [hmap] at hq'
        exact (Option.some.inj hq').symm
      · split
        · rename_i hn
          rw [hn, hmap]
        · rfl

/-! ## Names that leave the map -/

theorem foldl_removeName (names : List String) (s : State) :
    names.foldl State.removeName s =
      { s with packageMap := fun n => if n ∈ names then none else s.packageMap n } := by
  induction names generalizing s with
  | nil => simp
  | cons m rest ih =>
    rw [List.foldl_cons, ih]
    unfold State.removeName
    congr 1
    funext n
    by_cases hn : n = m <;> simp [hn]

theorem removeNames_eq (s : State) (p : ℕ) :
    s.removeNames p =
      { s with
        packageMap := fun n => if (s.packages p).HasName n then none else s.packageMap n } := by
  unfold State.removeNames
  rw [foldl_removeName]
  cases hname : (s.packages p).name with
  | none => simp [Package.HasName, hname]
  | some m =>
    unfold State.removeName
    congr 1
    funext n
    by_cases hn : n = m
    · simp [Package.HasName, hname, hn]
    · by_cases hmem : n ∈ (s.packages p).nicknames <;>
        simp [Package.HasName, hname, hn, Ne.symm hn, hmem]

theorem Registry.removed_iff (h : Registry s) (hlive : s.Live p) (n : String) (q : ℕ) :
    (if (s.packages p).HasName n then none else s.packageMap n) = some q ↔
      q ≠ p ∧ s.packageMap n = some q := by
  have hp := h.map n p
  rw [and_iff_right hlive] at hp
  by_cases hhas : (s.packages p).HasName n
  · rw [if_pos hhas, hp.2 hhas]
    constructor
    · intro hq
      cases hq
    · rintro ⟨hne, hq⟩
      exact absurd (Option.some.inj hq).symm hne
  · rw [if_neg hhas]
    constructor
    · intro hq
      refine ⟨?_, hq⟩
      rintro rfl
      exact hhas (hp.1 hq)
    · exact And.right

theorem foldl_pushNickname (names : List String) (s : State) :
    names.foldl (State.pushNickname p) s =
      { s with
        packageMap := fun n => if n ∈ names then some p else s.packageMap n
        packages := Function.update s.packages p
          { s.packages p with nicknames := names.reverse ++ (s.packages p).nicknames } } := by
  induction names generalizing s with
  | nil => simp
  | cons m rest ih =>
    rw [List.foldl_cons, ih]
    unfold State.pushNickname State.putName State.setPackage
    simp only [Function.update_self, Function.update_idem, List.reverse_cons, List.append_assoc,
      List.cons_append, List.nil_append]
    congr 1
    funext n
    by_cases hn : n = m
    · simp [hn]
    · simp [hn]

theorem Registry.renamePackage {newNicknames : List String} (h : Registry s)
    (hp : s.Live p ∨ ∃ n ∈ name :: newNicknames, (s.packageMap n).any (· ≠ p)) :
    Registry (s.renamePackage p name newNicknames).2 := by
  unfold State.renamePackage
  split
  · exact h
  · rename_i hnone
    have hfree : ∀ n ∈ name :: newNicknames, ∀ q, s.packageMap n = some q → q = p := by
      intro n hn q hq
      have hany := List.find?_eq_none.1 hnone n hn
      simpa [hq] using hany
    have hlive : s.Live p := by
      rcases hp with hlive | ⟨n, hn, hany⟩
      · exact hlive
      · exact absurd hany (List.find?_eq_none.1 hnone n hn)
    dsimp only
    rw [foldl_pushNickname, removeNames_eq]
    refine h.of_names ⟨rfl, ?_, ?_, ?_⟩ hlive ?_ rfl ?_
    · intro q hq
      simp [State.putName, hq]
    · simp
    · simp
    · simp [State.Live]
    · intro n q
      have hremoved := h.removed_iff hlive n q
      have hold : n ∈ name :: newNicknames → s.packageMap n = some q → q = p := fun hn =>
        hfree n hn q
      rw [List.mem_cons] at hold
      by_cases hnick : n ∈ newNicknames
      · by_cases hq : q = p
        · simp [hnick, hq, Package.HasName]
        · have hne : s.packageMap n ≠ some q := fun heq => hq (hold (Or.inr hnick) heq)
          simp [hnick, hq, Ne.symm hq, hne]
      · by_cases hname : n = name
        · subst hname
          by_cases hq : q = p
          · simp [hnick, hq, Package.HasName, State.putName, State.setPackage]
          · have hne : s.packageMap n ≠ some q := fun heq => hq (hold (Or.inl rfl) heq)
            simp [hnick, hne, hq, Ne.symm hq, State.putName, State.setPackage]
        · simpa [hnick, hname, Ne.symm hname, Package.HasName, State.putName, State.setPackage]
            using hremoved

theorem Registry.deletePackageInternal (h : Registry s)
    (halone : s.Live p → ∀ q ∈ (s.packages p).useList ++ (s.packages p).usedByList,
      q = p ∨ ¬s.Live q) : Registry (s.deletePackageInternal p) := by
  unfold State.deletePackageInternal
  split
  · exact h
  · rename_i m hname
    have hlive : s.Live p := by simp [State.Live, hname]
    have halone := halone hlive
    -- the lists of all packages stay, and only `p` is no longer live
    have hlives : ∀ q, (if q = p then (none : Option String) else (s.packages q).name) ≠ none ↔
        q ≠ p ∧ s.Live q := by
      intro q
      by_cases hq : q = p <;> simp [hq, State.Live]
    have hpackages : ∀ q, ∀ package : Package, package.name = none →
        (Function.update s.packages p package q).name =
          if q = p then none else (s.packages q).name := by
      intro q package hnone
      by_cases hq : q = p
      · subst hq
        simpa using hnone
      · simp [hq]
    rw [removeNames_eq]
    constructor
    · intro n q
      unfold State.Live
      rw [hpackages q _ rfl, hlives]
      have hremoved := h.removed_iff hlive n q
      rw [h.map n q, ← and_assoc] at hremoved
      by_cases hq : q = p
      · subst hq
        simpa using hremoved
      · simpa [hq] using hremoved
    · intro q
      unfold State.Live
      rw [hpackages q _ rfl, hlives, ← h.all q]
      simp [and_comm]
    · intro q q'
      have hinverse := h.inverse q q'
      by_cases hq : q = p <;> by_cases hq' : q' = p <;> simp_all
    · intro q q' huse'
      have huse : q' ∈ (s.packages q).useList := by
        by_cases hq : q = p
        · subst hq
          simpa using huse'
        · simpa [hq] using huse'
      have hiff := h.live q q' huse
      unfold State.Live
      rw [hpackages q _ rfl, hpackages q' _ rfl, hlives, hlives]
      by_cases hq : q = p
      · subst hq
        have hq' := halone q' (List.mem_append_left _ huse)
        simp
        tauto
      · by_cases hq' : q' = p
        · subst hq'
          have hq'' := halone q (List.mem_append_right _ ((h.inverse q q').1 huse))
          simp
          tauto
        · tauto
    · intro q hq
      have hlt := h.lt_of_live hlive
      have hne : q ≠ p := by
        rintro rfl
        exact absurd hlt (not_lt.2 hq)
      simpa [hne] using h.fresh q hq

/-! ## New packages -/

theorem Registry.newPackage (h : Registry s) (hname : s.packageMap name = none) :
    Registry (s.newPackage name) := by
  have hfresh := h.fresh s.packageCount le_rfl
  have hlives : ∀ q, (s.newPackage name).Live q ↔ q = s.packageCount ∨ s.Live q := by
    intro q
    by_cases hq : q = s.packageCount
    · simp [State.Live, State.newPackage, hq, Package.new]
    · simp [State.Live, State.newPackage, hq]
  -- no package uses the new one or is used by it
  have huse : ∀ q, ((s.newPackage name).packages q).useList = (s.packages q).useList ∧
      ((s.newPackage name).packages q).usedByList = (s.packages q).usedByList := by
    intro q
    by_cases hq : q = s.packageCount
    · subst hq
      rw [hfresh]
      simp [State.newPackage, Package.new]
    · simp [State.newPackage, hq]
  constructor
  · intro n q
    rw [hlives]
    by_cases hq : q = s.packageCount
    · subst hq
      have hne : ∀ n, s.packageMap n ≠ some s.packageCount := by
        intro n heq
        exact absurd (h.lt_of_live ((h.map n _).1 heq).1) (lt_irrefl _)
      by_cases hn : n = name
      · simp [State.newPackage, hn, Package.HasName, Package.new]
      · simp [State.newPackage, hn, Ne.symm hn, Package.HasName, Package.new, hne]
    · by_cases hn : n = name
      · have hmap := h.map n q
        rw [hn, hname] at hmap
        simp only [reduceCtorEq, false_iff] at hmap
        simpa [State.newPackage, hn, hq, Ne.symm hq] using hmap
      · simpa [State.newPackage, hn, hq] using h.map n q
  · intro q
    rw [hlives, ← h.all q]
    simp [State.newPackage]
  · intro q q'
    rw [(huse q).1, (huse q').2]
    exact h.inverse q q'
  · intro q q' hmem
    rw [(huse q).1] at hmem
    rw [hlives, hlives]
    have hq : q ≠ s.packageCount := by
      rintro rfl
      rw [hfresh] at hmem
      simp [Package.new] at hmem
    have hq' : q' ≠ s.packageCount := by
      rintro rfl
      rw [h.inverse, hfresh] at hmem
      simp [Package.new] at hmem
    simpa [hq, hq'] using h.live q q' hmem
  · intro q hq
    have hle : s.packageCount + 1 ≤ q := hq
    have hne : q ≠ s.packageCount := by omega
    simpa [State.newPackage, hne] using h.fresh q (by omega)

theorem live_addNickname (hq : s.Live q) : (s.addNickname p name).2.Live q := by
  have hpush : ∀ s' : State, s'.Live q → State.Live
      (if name ∈ (s'.packages p).nicknames then s'
      else s'.setPackage p
        { s'.packages p with nicknames := name :: (s'.packages p).nicknames }) q := by
    intro s' hs'
    split
    · exact hs'
    · by_cases heq : q = p
      · subst heq
        simpa [State.Live] using hs'
      · simpa [State.Live, heq] using hs'
  unfold State.addNickname
  cases s.packageMap name with
  | none => exact hpush (s.putName name p) hq
  | some q' =>
    dsimp only
    split
    · exact hq
    · exact hpush s hq

theorem Registry.addNicknames (h : Registry s) (hp : s.Live p) (nicknames : List String) :
    Registry (s.addNicknames p nicknames).2 ∧
      ∀ q, s.Live q → (s.addNicknames p nicknames).2.Live q := by
  induction nicknames generalizing s with
  | nil => exact ⟨h, fun q hq => hq⟩
  | cons nickname rest ih =>
    have hadd : Registry (s.addNickname p nickname).2 := h.addNickname (Or.inl hp)
    have hlive : ∀ q, s.Live q → (s.addNickname p nickname).2.Live q :=
      fun q hq => live_addNickname hq
    unfold State.addNicknames
    split
    · rename_i e s' heq
      rw [heq] at hadd hlive
      exact ⟨hadd, hlive⟩
    · rename_i s' heq
      rw [heq] at hadd hlive
      obtain ⟨hrest, hliverest⟩ := ih hadd (hlive p hp)
      exact ⟨hrest, fun q hq => hliverest q (hlive q hq)⟩

theorem Registry.usePackages {use : List Designator} (h : Registry s) (hp : s.Live p)
    (huse : ∀ d ∈ use, d.Live s) : Registry (s.usePackages p use).2 := by
  induction use generalizing s with
  | nil => exact h
  | cons d rest ih =>
    unfold State.usePackages
    cases hd : s.coerceToPackage d with
    | none => exact h
    | some q =>
      have hq : s.Live q := by
        cases d with
        | package q' =>
          have heq : q' = q := Option.some.inj hd
          subst heq
          exact huse (.package q') (by simp)
        | name n => exact ((h.map n q).1 hd).1
      have hlive : ∀ q', s.Live q' → (s.usePackage p q).Live q' := by
        intro q' hq'
        unfold State.Live
        rw [(usePackage_name q').1]
        exact hq'
      apply ih
      · exact h.usePackage (h.lt_of_live hp) (h.lt_of_live hq) ⟨fun _ => hq, fun _ => hp⟩
      · exact hlive p hp
      · intro d' hd'
        cases d' with
        | package q' => exact hlive q' (huse (.package q') (by simp [hd']))
        | name n => trivial

theorem Registry.makePackage {nicknames : List String} {use : List Designator} (h : Registry s)
    (hmeets : (Op.makePackage name nicknames use).KeepsRegistry s) :
    Registry (s.makePackage name nicknames use).2 := by
  unfold State.makePackage
  split
  · exact h
  · rename_i hnames
    have hfree : ∀ n ∈ name :: nicknames, s.packageMap n = none := by
      intro n hn
      simpa using List.find?_eq_none.1 hnames n hn
    split
    · exact h
    · rename_i huses
      have hlive : ∀ d ∈ use, d.Live s := by
        rcases hmeets with hlive | ⟨n, hn, hne⟩ | ⟨d, hd, hnone⟩
        · exact hlive
        · exact absurd (hfree n hn) hne
        · have hsome := List.find?_eq_none.1 huses d hd
          simp [hnone] at hsome
      have hnew : Registry (s.newPackage name) := h.newPackage (hfree name (by simp))
      have hnewlive : (s.newPackage name).Live s.packageCount := by
        simp [State.Live, State.newPackage, Package.new]
      have hkeeps : ∀ q, s.Live q → (s.newPackage name).Live q := by
        intro q hq
        have hne : q ≠ s.packageCount := ne_of_lt (h.lt_of_live hq)
        simpa [State.Live, State.newPackage, hne] using hq
      obtain ⟨hnick, hnicklive⟩ := hnew.addNicknames hnewlive nicknames
      split
      · rename_i e s' heq
        rw [heq] at hnick
        exact hnick
      · rename_i s' heq
        rw [heq] at hnick hnicklive
        apply hnick.usePackages (hnicklive _ hnewlive)
        intro d hd
        cases d with
        | package q => exact hnicklive q (hkeeps q (hlive (.package q) hd))
        | name n => trivial

theorem Registry.exec {op : Op} (keyword : ℕ) (h : Registry s) (hknown : op.Known s)
    (hmeets : op.KeepsRegistry s) : Registry (exec keyword s op).2 := by
  cases op with
  | makePackage name nicknames use => exact h.makePackage hmeets
  | usePackage p q => exact h.usePackage hknown.1 hknown.2 hmeets
  | unusePackage p q => exact h.unusePackage hknown.1 hknown.2
  | addNickname p nickname => exact h.addNickname hmeets
  | renamePackage p newName newNicknames => exact h.renamePackage hmeets
  | deletePackage d =>
    change Registry (s.deletePackage d).2
    unfold State.deletePackage
    cases hd : s.deletionTarget d with
    | none => exact h
    | some p => exact h.deletePackageInternal (hmeets p hd)
  | _ => exact hmeets.elim

/-! ## Runs -/

/-- **The registry stays coherent** in the runs whose steps stay away from deleted packages and
delete no package that a live one uses or is used by. -/
theorem registered_of_runsTo {keyword : ℕ} {s : State}
    (hrun : RunsTo keyword (fun s op => op.KeepsRegistry s) s) : s.Registered := by
  have h : Registry s := hrun.invariant registry_initial
    fun s op h hknown hmeets => h.exec keyword hknown hmeets
  exact h.registered

/-- Packages are made, renamed, used and deleted once nothing uses them. -/
def registeredRun : List Op :=
  [.makePackage "A" ["A1"] [], .makePackage "B" [] [.name "A1"], .renamePackage 0 "C" ["A", "A1"],
    .addNickname 1 "B1", .unusePackage 1 0, .deletePackage (.name "A")]

theorem registered_registeredRun :
    ¬(runOps 2 .initial registeredRun).Live 0 ∧ (runOps 2 .initial registeredRun).Registered := by
  constructor
  · decide
  · apply registered_of_runsTo
    exact RunsTo.initial.runOps (by decide)

def deleteUsed : List Op :=
  [.makePackage "A" [] [], .makePackage "B" [] [.name "A"], .deletePackage (.name "A")]

def useDeleted : List Op :=
  [.makePackage "A" [] [], .makePackage "B" [] [], .deletePackage (.name "A"), .usePackage 1 0]

/-- A deleted package is used by a new one. -/
def makeUsingDeleted : List Op :=
  [.makePackage "A" [] [], .deletePackage (.name "A"), .makePackage "B" [] [.package 0]]

def renameDeleted : List Op :=
  [.makePackage "A" [] [], .deletePackage (.name "A"), .renamePackage 0 "B" []]

def nicknameDeleted : List Op :=
  [.makePackage "A" [] [], .deletePackage (.name "A"), .addNickname 0 "B"]

/-- Each of the other steps breaks the registry. -/
theorem not_registered_of_onRegistry :
    [deleteUsed, useDeleted, makeUsingDeleted, renameDeleted, nicknameDeleted].Forall fun ops =>
      RunsTo 2 (fun _ op => op.OnRegistry) (runOps 2 .initial ops) ∧
        ¬(runOps 2 .initial ops).Registered := by
  rw [List.forall_iff_forall_mem]
  intro ops hops
  fin_cases hops
  · refine ⟨RunsTo.initial.runOps (by decide), fun h => ?_⟩
    exact absurd (h.live 1 0 (by decide) (by decide)) (by decide)
  · refine ⟨RunsTo.initial.runOps (by decide), fun h => ?_⟩
    exact absurd (h.live 1 0 (by decide) (by decide)) (by decide)
  · refine ⟨RunsTo.initial.runOps (by decide), fun h => ?_⟩
    exact absurd (h.live 1 0 (by decide) (by decide)) (by decide)
  · refine ⟨RunsTo.initial.runOps (by decide), fun h => ?_⟩
    exact absurd ((h.map "B" 0).1 (by decide)).1 (by decide)
  · refine ⟨RunsTo.initial.runOps (by decide), fun h => ?_⟩
    exact absurd ((h.map "B" 0).1 (by decide)).1 (by decide)

end Xcl.Packages
