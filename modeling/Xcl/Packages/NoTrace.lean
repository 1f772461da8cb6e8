import Xcl.Packages.Filling

/-!
# Failing package definitions

* `LeavesNoTrace`: a call that signals an error leaves the registry as it was;
* **`leavesNoTrace_iff`**: `%make-package` and `RENAME-PACKAGE` leave no trace, `%defpackage` does
  so if the arguments describe a package or are found wrong before it is made.
-/

namespace Xcl.Packages

open Xcl.Exits

variable {α β : Type} {s s' : State} {name : String}

def LeavesNoTrace (m : Action α) (s : State) : Prop := ∀ e s', m s = (.error e, s') → s' = s

/-! ## Tests -/

def Tests (m : Action α) : Prop := ∀ s, (m s).2 = s

theorem tests_pure (a : α) : Tests (pure a : Action α) := fun _ => rfl

theorem tests_exit (e : Failure) : Tests (Comp.exit e : Action α) := fun _ => rfl

theorem Tests.bind {m : Action α} {f : α → Action β} (hm : Tests m) (hf : ∀ a, Tests (f a)) :
    Tests (m >>= f) := by
  intro s
  have hs := hm s
  change (Comp.bind m f s).2 = s
  unfold Comp.bind
  generalize m s = result at hs ⊢
  obtain ⟨result, s'⟩ := result
  cases result with
  | error e => exact hs
  | ok a => exact (hf a s').trans hs

theorem tests_forEach {body : Datum → Action Unit} (h : ∀ d, Tests (body d)) (d : Datum) :
    Tests (forEach body d) := by
  induction d with
  | nil => exact tests_pure ()
  | cons a d _ ih => exact (h a).bind fun _ => ih
  | string _ | symbol _ | character _ | package _ | other => exact tests_exit _

theorem tests_string (d : Datum) : Tests (string d) := by
  unfold string
  split
  · exact tests_pure _
  · exact tests_exit _

theorem tests_checkString (d : Datum) : Tests (checkString d) := by
  unfold checkString
  split
  · exact tests_pure _
  · exact tests_exit _

theorem tests_checkList (d : Datum) : Tests (checkList d) := by
  unfold checkList
  split
  · exact tests_pure _
  · exact tests_pure _
  · exact tests_exit _

theorem tests_checkLists (lists : List Datum) : Tests (checkLists lists) := by
  induction lists with
  | nil => exact tests_pure ()
  | cons d rest ih => exact (tests_checkList d).bind fun _ => ih

theorem tests_findPackage (name : String) : Tests (findPackage name) := fun _ => rfl

theorem tests_coerceToPackage (d : Datum) : Tests (coerceToPackageAction d) := by
  unfold coerceToPackageAction
  split
  · exact tests_pure _
  · refine (tests_string _).bind fun name => (tests_findPackage name).bind fun p => ?_
    split
    · exact tests_pure _
    · exact tests_exit _

theorem tests_checkNickname (d : Datum) : Tests (checkNickname d) := by
  refine (tests_string d).bind fun name => (tests_findPackage name).bind fun p => ?_
  split
  · exact tests_exit _
  · exact tests_pure _

theorem tests_checkPackage (d : Datum) : Tests (checkPackage d) :=
  (tests_coerceToPackage d).bind fun _ => tests_pure ()

theorem tests_checkName (p : ℕ) (d : Datum) : Tests (checkName p d) := by
  refine (tests_string d).bind fun name => (tests_findPackage name).bind fun q => ?_
  split
  · split
    · exact tests_exit _
    · exact tests_pure _
  · exact tests_pure _

theorem LeavesNoTrace.bind {m : Action α} {f : α → Action β} (hm : Tests m)
    (hf : ∀ a, m s = (.ok a, s) → LeavesNoTrace (f a) s) : LeavesNoTrace (m >>= f) s := by
  intro e s' h
  have hs := hm s
  change Comp.bind m f s = _ at h
  unfold Comp.bind at h
  generalize hresult : m s = result at h hs
  obtain ⟨result, s₁⟩ := result
  obtain rfl : s₁ = s := hs
  cases result with
  | error e' =>
    obtain ⟨-, rfl⟩ := Prod.mk.inj h
    rfl
  | ok a => exact hf a hresult e s' h

theorem leavesNoTrace_exit (e : Failure) : LeavesNoTrace (Comp.exit e : Action α) s := by
  intro e' s' h
  obtain ⟨-, rfl⟩ := Prod.mk.inj h
  rfl

/-- An action that signals no error. -/
def Succeeds (m : Action α) (s : State) : Prop := ∃ a s', m s = (.ok a, s')

theorem Succeeds.leavesNoTrace {m : Action α} (h : Succeeds m s) : LeavesNoTrace m s := by
  intro e s' herror
  obtain ⟨a, s'', hok⟩ := h
  rw [hok] at herror
  cases herror

theorem succeeds_pure (a : α) : Succeeds (pure a : Action α) s := ⟨a, s, rfl⟩

theorem Succeeds.bind {m : Action α} {f : α → Action β} {a : α} (hm : m s = (.ok a, s'))
    (hf : Succeeds (f a) s') : Succeeds (m >>= f) s := by
  obtain ⟨b, s'', hf⟩ := hf
  refine ⟨b, s'', ?_⟩
  change Comp.bind m f s = _
  unfold Comp.bind
  rw [hm]
  exact hf

/-! ## The names of the new package -/

theorem checkNickname_apply (d : Datum) (s : State) :
    checkNickname d s = match d.string? with
      | some name => match s.packageMap name with
        | some _ => (.error (.package (.packageExists name)), s)
        | none => (.ok (), s)
      | none => (.error (.notStringDesignator d), s) := by
  unfold checkNickname string
  cases d.string? with
  | none => rfl
  | some name =>
    change ((match s.packageMap name with
      | some _ => Comp.exit (.package (.packageExists name))
      | none => return ()) : Action Unit) s = _
    dsimp only
    cases s.packageMap name <;> rfl

theorem forEach_cons_ok {body : Datum → Action Unit} {a d : Datum} (h : Tests (body a)) :
    forEach body (.cons a d) s = (.ok (), s) ↔
      body a s = (.ok (), s) ∧ forEach body d s = (.ok (), s) := by
  have ha := h s
  change Comp.bind (body a) (fun _ => forEach body d) s = _ ↔ _
  unfold Comp.bind
  generalize body a s = result at ha ⊢
  obtain ⟨result, s'⟩ := result
  obtain rfl : s' = s := ha
  cases result with
  | error e => exact ⟨nofun, fun h => nomatch h.1⟩
  | ok u => exact ⟨fun h => ⟨rfl, h⟩, fun h => h.2⟩

theorem checkNicknames_iff (d : Datum) (s : State) :
    forEach checkNickname d s = (.ok (), s) ↔
      ∃ names, d.strings? = some names ∧ ∀ name ∈ names, s.packageMap name = none := by
  induction d with
  | nil => exact ⟨fun _ => ⟨[], rfl, nofun⟩, fun _ => rfl⟩
  | cons a d _ ih =>
    have hstrings : (Datum.cons a d).strings? =
        a.string?.bind fun name => d.strings?.bind fun names => some (name :: names) := rfl
    rw [forEach_cons_ok (tests_checkNickname a), checkNickname_apply, ih, hstrings]
    cases a.string? with
    | none =>
      constructor
      · rintro ⟨h, -⟩
        cases h
      · rintro ⟨names, hnames, -⟩
        cases hnames
    | some name =>
      dsimp only [Option.bind_some]
      constructor
      · rintro ⟨hname, rest, hrest, hnone⟩
        refine ⟨name :: rest, by rw [hrest]; rfl, fun n hn => ?_⟩
        rcases List.mem_cons.1 hn with rfl | hn
        · cases hmap : s.packageMap n with
          | none => rfl
          | some q =>
            rw [hmap] at hname
            cases hname
        · exact hnone n hn
      · rintro ⟨names, hnames, hnone⟩
        obtain ⟨rest, hrest, heq⟩ := Option.bind_eq_some_iff.1 hnames
        obtain rfl := Option.some.inj heq
        rw [hnone name List.mem_cons_self]
        exact ⟨rfl, rest, hrest, fun n hn => hnone n (List.mem_cons_of_mem name hn)⟩
  | string _ | symbol _ | character _ | package _ | other =>
    constructor
    · exact nofun
    · rintro ⟨names, hnames, -⟩
      cases hnames

structure Named (r : Namespaces) (s : State) : Prop where
  map : ∀ name, s.packageMap name =
    if name ∈ r.names then some r.self else r.state.packageMap name
  count : s.packageCount = r.self + 1
  symbols : s.symbols = r.state.symbols
  home : s.home = r.state.home
  others : ∀ q, q ≠ r.self → s.packages q = r.state.packages q
  empty : ∃ name nicknames,
    s.packages r.self = { Package.new (some name) with nicknames := nicknames }

theorem named_newPackage (s : State) (name : String) :
    Named ⟨s, [name]⟩ (s.newPackage name) where
  map n := by
    change Function.update s.packageMap name (some s.packageCount) n = _
    by_cases hn : n = name
    · rw [hn, Function.update_self]
      exact (if_pos List.mem_cons_self).symm
    · rw [Function.update_of_ne hn]
      exact (if_neg (by simpa using hn)).symm
  count := rfl
  symbols := rfl
  home := rfl
  others q hq := Function.update_of_ne hq _ _
  empty := ⟨name, [], Function.update_self ..⟩

theorem Named.addNickname {names : List String} (h : Named ⟨s, names⟩ s')
    (hname : s.packageMap name = none) :
    ∃ s'', s'.addNickname s.packageCount name = (none, s'') ∧ Named ⟨s, names ++ [name]⟩ s'' := by
  have hpush : ∀ {s₁ : State}, Named ⟨s, names ++ [name]⟩ s₁ → Named ⟨s, names ++ [name]⟩
      (if name ∈ (s₁.packages s.packageCount).nicknames then s₁
      else s₁.setPackage s.packageCount { s₁.packages s.packageCount with
        nicknames := name :: (s₁.packages s.packageCount).nicknames }) := by
    intro s₁ h
    split
    · exact h
    · obtain ⟨first, nicknames, hempty⟩ := h.empty
      refine ⟨h.map, h.count, h.symbols, h.home, fun q hq => ?_, first,
        name :: (s₁.packages s.packageCount).nicknames, ?_⟩
      · exact (Function.update_of_ne hq _ _).trans (h.others q hq)
      · have hempty' : s₁.packages s.packageCount =
            { Package.new (some first) with nicknames := nicknames } := hempty
        rw [State.setPackage_packages]
        refine (Function.update_self ..).trans ?_
        rw [hempty']
  have hmap := h.map name
  unfold State.addNickname
  dsimp only
  cases hfound : s'.packageMap name with
  | none =>
    refine ⟨_, rfl, hpush ?_⟩
    refine ⟨fun n => ?_, h.count, h.symbols, h.home, h.others, h.empty⟩
    change Function.update s'.packageMap name (some s.packageCount) n = _
    by_cases hn : n = name
    · rw [hn, Function.update_self]
      exact (if_pos (by simp)).symm
    · rw [Function.update_of_ne hn, h.map n]
      simp [hn, Namespaces.self]
  | some q =>
    have hmem : name ∈ names := by
      by_contra hne
      rw [hfound] at hmap
      rw [if_neg hne] at hmap
      exact absurd (hmap.trans hname) nofun
    rw [if_pos hmem, hfound] at hmap
    obtain rfl : q = s.packageCount := Option.some.inj hmap
    dsimp only
    rw [if_neg (by simp)]
    refine ⟨_, rfl, hpush ⟨fun n => ?_, h.count, h.symbols, h.home, h.others, h.empty⟩⟩
    rw [h.map n]
    by_cases hn : n = name
    · simp [hn, hmem, Namespaces.self]
    · simp [hn, Namespaces.self]

theorem named_addNicknames {d : Datum} {nicknames : List String} (hd : d.strings? = some nicknames)
    (hnone : ∀ name ∈ nicknames, s.packageMap name = none) {names : List String}
    (h : Named ⟨s, names⟩ s') :
    ∃ s'', forEach (addNicknameAction s.packageCount) d s' = (.ok (), s'') ∧
      Named ⟨s, names ++ nicknames⟩ s'' := by
  induction d generalizing nicknames names s' with
  | nil =>
    obtain rfl := Option.some.inj hd
    rw [List.append_nil]
    exact ⟨s', rfl, h⟩
  | cons a d _ ih =>
    obtain ⟨name, hname, hrest⟩ := Option.bind_eq_some_iff.1 hd
    obtain ⟨rest, hd', heq⟩ := Option.bind_eq_some_iff.1 hrest
    obtain rfl := Option.some.inj heq
    obtain ⟨s₁, hadd, hnamed⟩ := h.addNickname (hnone name List.mem_cons_self)
    obtain ⟨s₂, hloop, hnamed'⟩ := ih hd' (fun n hn => hnone n (List.mem_cons_of_mem name hn))
      hnamed
    rw [List.append_assoc] at hnamed'
    refine ⟨s₂, ?_, hnamed'⟩
    have hstep : addNicknameAction s.packageCount a s' = (.ok (), s₁) := by
      unfold addNicknameAction string
      rw [hname]
      change perform (·.addNickname s.packageCount name) s' = _
      unfold perform
      dsimp only
      rw [hadd]
    change Comp.bind _ _ s' = _
    unfold Comp.bind
    rw [hstep]
    exact hloop
  | string _ | symbol _ | character _ | package _ | other => cases hd

/-! ## The calls -/

theorem Named.shadowing (halloc : s.Allocated) {names : List String} (h : Named ⟨s, names⟩ s') :
    Shadowing ⟨s, names⟩ .empty s' := by
  obtain ⟨first, nicknames, hempty⟩ := h.empty
  have hpresent : ∀ n, s'.present (Namespaces.self ⟨s, names⟩) n = none := by
    intro n
    unfold State.present
    rw [hempty]
    rfl
  have hhome : ∀ t ∈ s.symbols, s'.home t ≠ some s.packageCount := by
    intro t _ hself
    rw [h.home] at hself
    exact absurd (halloc.home t _ hself) (lt_irrefl _)
  refine ⟨⟨⟨h.map, h.count, fun q hq => ?_, ?_, fun q hq => ?_, fun n => ?_, fun n t ht => ?_,
    fun n hn => ?_, h.symbols.symm ▸ le_rfl, fun t ht hself => absurd hself (hhome t ht)⟩,
    fun n => ?_⟩, hhome⟩
  · rw [h.others q hq]
    exact ⟨rfl, rfl, rfl⟩
  · rw [hempty]
    rfl
  · rw [hempty] at hq
    exact absurd hq List.not_mem_nil
  · rw [hpresent]
    exact trivial
  · rw [hpresent] at ht
    cases ht
  · rw [hempty] at hn
    exact absurd rfl hn
  · rw [hempty]
    rfl

def Datum.package? (s : State) : Datum → Option ℕ
  | .package p => some p
  | d => d.string?.bind s.packageMap

theorem coerceToPackage_ok_iff {d : Datum} {q : ℕ} :
    coerceToPackageAction d s = (.ok q, s) ↔ d.package? s = some q := by
  have hname : ∀ d : Datum, (do
      let name ← string d
      match ← findPackage name with
      | some p => return p
      | none => Comp.exit (.notPackageName d) : Action ℕ) s = (.ok q, s) ↔
        d.string?.bind s.packageMap = some q := by
    intro d
    unfold string
    cases d.string? with
    | none => exact ⟨nofun, nofun⟩
    | some name =>
      change ((match s.packageMap name with
        | some p => return p
        | none => Comp.exit (.notPackageName d)) : Action ℕ) s = _ ↔ s.packageMap name = some q
      cases s.packageMap name with
      | none => exact ⟨nofun, nofun⟩
      | some p =>
        constructor
        · intro h
          obtain ⟨hp, -⟩ := Prod.mk.inj h
          rw [Except.ok.inj hp]
        · intro h
          rw [Option.some.inj h]
          rfl
  cases d with
  | package p =>
    constructor
    · intro h
      obtain ⟨hp, -⟩ := Prod.mk.inj h
      exact congrArg some (Except.ok.inj hp)
    · intro h
      obtain rfl := Option.some.inj h
      rfl
  | nil => exact hname .nil
  | cons a d => exact hname (.cons a d)
  | string n => exact hname (.string n)
  | symbol t => exact hname (.symbol t)
  | character ch => exact hname (.character ch)
  | other => exact hname .other

theorem exists_of_checkPackage {d : Datum} (h : checkPackage d s = (.ok (), s)) :
    ∃ q, d.package? s = some q := by
  have hstate := tests_coerceToPackage d s
  change Comp.bind (coerceToPackageAction d) (fun _ => pure ()) s = _ at h
  unfold Comp.bind at h
  cases hresult : coerceToPackageAction d s with
  | mk result s₁ =>
    rw [hresult] at h hstate
    cases result with
    | error e => cases h
    | ok q =>
      obtain rfl : s₁ = s := hstate
      exact ⟨q, coerceToPackage_ok_iff.1 hresult⟩

theorem package?_mono {d : Datum} {q : ℕ} (h : d.package? s = some q)
    (hmap : ∀ name q, s.packageMap name = some q → s'.packageMap name = some q) :
    d.package? s' = some q := by
  have hname : ∀ d : Datum, d.string?.bind s.packageMap = some q →
      d.string?.bind s'.packageMap = some q := by
    intro d h
    obtain ⟨name, hname, hq⟩ := Option.bind_eq_some_iff.1 h
    rw [hname]
    exact hmap name q hq
  cases d with
  | package p => exact h
  | nil => exact hname .nil h
  | cons a d => exact hname (.cons a d) h
  | string n => exact hname (.string n) h
  | symbol t => exact hname (.symbol t) h
  | character ch => exact hname (.character ch) h
  | other => exact hname .other h

theorem succeeds_usePackages {p : ℕ} (d : Datum) (htest : forEach checkPackage d s = (.ok (), s))
    (hmap : ∀ name q, s.packageMap name = some q → s'.packageMap name = some q) :
    Succeeds (forEach (usePackageAction p) d) s' := by
  induction d generalizing s' with
  | nil => exact succeeds_pure ()
  | cons a d _ ih =>
    rw [forEach_cons_ok (tests_checkPackage a)] at htest
    obtain ⟨ha, hd⟩ := htest
    obtain ⟨q, hq⟩ := exists_of_checkPackage ha
    have hfound := coerceToPackage_ok_iff.2 (package?_mono hq hmap)
    have huse : usePackageAction p a s' = (.ok (), s'.usePackage p q) := by
      change Comp.bind _ _ s' = _
      unfold Comp.bind
      rw [hfound]
      rfl
    refine Succeeds.bind huse (ih hd fun name q' hq' => ?_)
    have hsame : (s'.usePackage p q).packageMap = s'.packageMap := by
      unfold State.usePackage
      split <;> rfl
    rw [hsame]
    exact hmap name q' hq'
  | string _ | symbol _ | character _ | package _ | other => cases htest

theorem leavesNoTrace_makePackage (name nicknames use : Datum) (s : State) :
    LeavesNoTrace (makePackageInternal name nicknames use) s := by
  refine LeavesNoTrace.bind (tests_string name) fun packageName _ => ?_
  refine LeavesNoTrace.bind (tests_findPackage packageName) fun found hfound => ?_
  cases found with
  | some p => exact leavesNoTrace_exit _
  | none =>
    have hname : s.packageMap packageName = none := by
      obtain ⟨h, -⟩ := Prod.mk.inj hfound
      exact Except.ok.inj h
    refine LeavesNoTrace.bind (tests_checkList nicknames) fun nicknames _ => ?_
    refine LeavesNoTrace.bind (tests_forEach tests_checkNickname nicknames) fun _ hnicks => ?_
    refine LeavesNoTrace.bind (tests_checkList use) fun use _ => ?_
    refine LeavesNoTrace.bind (tests_forEach tests_checkPackage use) fun _ huse => ?_
    -- every check has been passed
    obtain ⟨nicks, hstrings, hnone⟩ := (checkNicknames_iff nicknames s).1 hnicks
    obtain ⟨s₁, hloop, hnamed⟩ :=
      named_addNicknames hstrings hnone (named_newPackage s packageName)
    apply Succeeds.leavesNoTrace
    refine Succeeds.bind (show newPackageAction packageName s = (.ok s.packageCount, _) from rfl) ?_
    refine Succeeds.bind hloop ?_
    obtain ⟨_, s₂, huses⟩ := succeeds_usePackages (p := s.packageCount) use huse fun n q hq => by
      rw [hnamed.map n, if_neg]
      · exact hq
      · intro hmem
        have hold : s.packageMap n = none := by
          rcases List.mem_cons.1 hmem with rfl | hmem
          · exact hname
          · exact hnone n hmem
        rw [hold] at hq
        cases hq
    exact Succeeds.bind huses (succeeds_pure _)

/-- The new names are string designators, since they have been looked up. -/
theorem succeeds_pushNicknames {p : ℕ} (d : Datum) (htest : forEach (checkName p) d s = (.ok (),
    s)) :
    Succeeds (forEach (pushNicknameAction p) d) s' := by
  induction d generalizing s' with
  | nil => exact succeeds_pure ()
  | cons a d _ ih =>
    rw [forEach_cons_ok (tests_checkName p a)] at htest
    obtain ⟨ha, hd⟩ := htest
    unfold checkName string at ha
    cases hstring : a.string? with
    | none =>
      rw [hstring] at ha
      cases ha
    | some name =>
      refine Succeeds.bind (a := ()) ?_ (@ih (s'.pushNickname p name) hd)
      unfold pushNicknameAction string
      rw [hstring]
      rfl
  | string _ | symbol _ | character _ | package _ | other => cases htest

theorem leavesNoTrace_renamePackage (package newName newNicknames : Datum) (s : State) :
    LeavesNoTrace (renamePackageAction package newName newNicknames) s := by
  refine LeavesNoTrace.bind (tests_coerceToPackage package) fun p _ => ?_
  refine LeavesNoTrace.bind (tests_checkName p newName) fun _ hname => ?_
  refine LeavesNoTrace.bind (tests_forEach (tests_checkName p) newNicknames) fun _ hnicks => ?_
  apply Succeeds.leavesNoTrace
  unfold checkName string at hname
  cases hstring : newName.string? with
  | none =>
    rw [hstring] at hname
    cases hname
  | some name =>
    have hread : ∀ s, string newName s = (.ok name, s) := by
      intro s
      unfold string
      rw [hstring]
      rfl
    refine Succeeds.bind (show Comp.modify _ s = (.ok (), s.removeNames p) from rfl) ?_
    refine Succeeds.bind (hread _) ?_
    refine Succeeds.bind (a := ()) rfl ?_
    obtain ⟨_, s₁, hpush⟩ := succeeds_pushNicknames (p := p) newNicknames hnicks
    exact Succeeds.bind hpush (succeeds_pure _)

theorem checkLists_iff (lists : List Datum) (s : State) :
    checkLists lists s = (.ok (), s) ↔ ∀ list ∈ lists, list.listp := by
  induction lists with
  | nil => exact ⟨fun _ => nofun, fun _ => rfl⟩
  | cons d rest ih =>
    rw [List.forall_mem_cons, ← ih]
    cases d with
    | nil => exact ⟨fun h => ⟨trivial, h⟩, And.right⟩
    | cons a d => exact ⟨fun h => ⟨trivial, h⟩, And.right⟩
    | string _ | symbol _ | character _ | package _ | other => exact ⟨nofun, fun h => h.1.elim⟩

theorem leavesNoTrace_of_not_defines {keyword : ℕ} {d : Declaration} (h : ¬ d.Defines s) :
    LeavesNoTrace (defpackageInternal keyword d) s := by
  refine LeavesNoTrace.bind (tests_checkString d.name) fun packageName hname => ?_
  refine LeavesNoTrace.bind (tests_checkLists _) fun _ hlists => ?_
  refine LeavesNoTrace.bind (tests_findPackage packageName) fun found hfound => ?_
  obtain ⟨hfound, -⟩ := Prod.mk.inj hfound
  obtain rfl := Except.ok.inj hfound
  split
  · exact (succeeds_pure _).leavesNoTrace
  · rename_i hnone
    refine LeavesNoTrace.bind (tests_forEach tests_checkNickname d.nicknames) fun _ hnicks => ?_
    obtain ⟨nicks, hstrings, hfree⟩ := (checkNicknames_iff d.nicknames s).1 hnicks
    refine absurd ⟨packageName :: nicks, ?_, (checkLists_iff _ s).1 hlists, fun n hn => ?_⟩ h
    · unfold checkString at hname
      unfold Declaration.names?
      cases hstring : d.name.stringp? with
      | none =>
        rw [hstring] at hname
        cases hname
      | some n =>
        rw [hstring] at hname
        obtain ⟨hname, -⟩ := Prod.mk.inj hname
        obtain rfl := Except.ok.inj hname
        rw [hstrings]
        rfl
    · rcases List.mem_cons.1 hn with rfl | hn
      · exact hnone
      · exact hfree n hn

theorem defpackage_of_defines (keyword : ℕ) {d : Declaration} {names : List String}
    (hnames : d.names? = some names) (hlists : ∀ list ∈ d.lists, list.listp)
    (hfree : ∀ name ∈ names, s.packageMap name = none) :
    ∃ s', Named ⟨s, names⟩ s' ∧ defpackageInternal keyword d s =
      (do
        fillPackage keyword s.packageCount d
        return s.packageCount : Action ℕ) s' := by
  obtain ⟨name, hname, hrest⟩ := Option.bind_eq_some_iff.1 hnames
  obtain ⟨nicks, hstrings, heq⟩ := Option.bind_eq_some_iff.1 hrest
  obtain rfl := Option.some.inj heq
  have hnicks := (checkNicknames_iff d.nicknames s).2
    ⟨nicks, hstrings, fun n hn => hfree n (List.mem_cons_of_mem name hn)⟩
  obtain ⟨s', hloop, hnamed⟩ := named_addNicknames hstrings
    (fun n hn => hfree n (List.mem_cons_of_mem name hn)) (named_newPackage s name)
  refine ⟨s', hnamed, ?_⟩
  have hbind : ∀ {α β : Type} {m : Action α} {f : α → Action β} {s s' : State} {a : α},
      m s = (.ok a, s') → (m >>= f) s = f a s' := by
    intro α β m f s s' a h
    change Comp.bind m f s = _
    unfold Comp.bind
    rw [h]
  unfold defpackageInternal checkString
  rw [hname]
  refine (hbind (show (pure name : Action String) s = (.ok name, s) from rfl)).trans ?_
  refine (hbind ((checkLists_iff _ s).2 hlists)).trans ?_
  refine (hbind (show findPackage name s = (.ok (s.packageMap name), s) from rfl)).trans ?_
  rw [hfree name List.mem_cons_self]
  refine (hbind hnicks).trans ?_
  refine (hbind (show newPackageAction name s = (.ok s.packageCount, _) from rfl)).trans ?_
  exact hbind hloop

/-- **`%defpackage` leaves no trace of a failing definition exactly when the arguments of a
definition for a new package describe one.** -/
theorem leavesNoTrace_defpackage_iff (halloc : s.Allocated) {keyword : ℕ}
    (hkeyword : keyword < s.packageCount) (d : Declaration) :
    LeavesNoTrace (defpackageInternal keyword d) s ↔ (d.Defines s → d.Consistent s) := by
  by_cases hdefines : d.Defines s
  swap
  · exact iff_of_true (leavesNoTrace_of_not_defines hdefines) fun h => absurd h hdefines
  obtain ⟨names, hnames, hlists, hfree⟩ := id hdefines
  obtain ⟨s', hnamed, heq⟩ := defpackage_of_defines keyword hnames hlists hfree
  have hfollows := follows_fillPackage (r := ⟨s, names⟩) halloc (Ne.symm hkeyword.ne) d
    (hnamed.shadowing halloc)
  have hconsistent : d.Consistent s ↔ (Namespaces.describe ⟨s, names⟩ d).isSome := by
    constructor
    · exact fun h => h names hnames
    · intro h names' hnames'
      obtain rfl := Option.some.inj (hnames'.symm.trans hnames)
      exact h
  have hcall : defpackageInternal keyword d s =
      Comp.bind (fillPackage keyword s.packageCount d) (fun _ => pure s.packageCount) s' := heq
  unfold Comp.bind at hcall
  change Follows _ _ _ (fillPackage keyword s.packageCount d s') at hfollows
  generalize fillPackage keyword s.packageCount d s' = result at hcall hfollows
  obtain ⟨result, s''⟩ := result
  cases hdescribe : Namespaces.describe ⟨s, names⟩ d with
  | some c =>
    rw [hdescribe] at hfollows hconsistent
    refine iff_of_true ?_ fun _ => hconsistent.2 rfl
    cases result with
    | error e => exact hfollows.elim
    | ok _ => exact Succeeds.leavesNoTrace ⟨_, _, hcall⟩
  | none =>
    rw [hdescribe] at hfollows hconsistent
    refine iff_of_false ?_ fun h => absurd (hconsistent.1 (h hdefines)) nofun
    intro htrace
    cases result with
    | ok _ => exact hfollows.elim
    | error e =>
      have hcount : s''.packageCount = s.packageCount + 1 := hfollows
      rw [htrace e s'' hcall] at hcount
      omega

/-- **A failing call leaves no trace**: `%make-package` and `RENAME-PACKAGE` make all their tests
before the first change, `%defpackage` makes those of the names only. -/
theorem leavesNoTrace_iff (halloc : s.Allocated) (keyword : ℕ) (hkeyword : keyword < s.packageCount)
    (name nicknames use package newName newNicknames : Datum) (d : Declaration) :
    LeavesNoTrace (makePackageInternal name nicknames use) s ∧
    LeavesNoTrace (renamePackageAction package newName newNicknames) s ∧
    (LeavesNoTrace (defpackageInternal keyword d) s ↔ (d.Defines s → d.Consistent s)) :=
  ⟨leavesNoTrace_makePackage name nicknames use s,
    leavesNoTrace_renamePackage package newName newNicknames s,
    leavesNoTrace_defpackage_iff halloc hkeyword d⟩

def keywordState : State := State.initial.newPackage "KEYWORD"

/-- A symbol is to be imported that is not there. -/
def importMissing : Declaration where
  name := .string "A"
  nicknames := .nil
  shadows := .nil
  shadowingImports := .nil
  use := .nil
  imports := .cons (.cons (.string "KEYWORD") (.cons (.string "X") .nil)) .nil
  interns := .nil
  exports := .nil

theorem leavesNoTrace_keywordState :
    (LeavesNoTrace (makePackageInternal (.string "B") .nil .nil) keywordState ∧
      LeavesNoTrace (renamePackageAction (.package 0) (.string "K") .nil) keywordState ∧
      (LeavesNoTrace (defpackageInternal 0 importMissing) keywordState ↔
        (importMissing.Defines keywordState → importMissing.Consistent keywordState))) ∧
    keywordState.packageCount = 1 :=
  ⟨leavesNoTrace_iff allocated_initial.newPackage 0 Nat.zero_lt_one (.string "B") .nil .nil
    (.package 0) (.string "K") .nil importMissing, rfl⟩

/-- The package is there after the error. -/
theorem not_leavesNoTrace_importMissing :
    ¬ LeavesNoTrace (defpackageInternal 0 importMissing) keywordState := by
  intro h
  have hcount := congrArg State.packageCount (h (.noSymbol "X" 0) _ rfl)
  exact absurd hcount (by decide)

end Xcl.Packages
