import Xcl.Packages.Allocation
import Xcl.Packages.Description
import Xcl.Packages.Meaning
import Xcl.Packages.Tables

/-!
# The package that a definition makes

* `Filled`: the new package has the contents that were described so far;
* **`follows_fillPackage`**: what `%defpackage` does to the package it has made.
-/

namespace Xcl.Packages

open Xcl.Exits

/-- What is described is what is there; a symbol that was made is none of the registry before. -/
def Agrees (s : State) : Option Source → Option Symbol → Prop
  | none, none => True
  | some .fresh, some symbol => symbol ∉ s.symbols
  | some (.symbol symbol), some symbol' => symbol' = symbol ∧ symbol ∈ s.symbols
  | _, _ => False

variable {s s' : State} {source source' : Option Source} {symbol symbol' : Symbol} {name : String}

theorem Agrees.eq_none_iff {found : Option Symbol} (h : Agrees s source found) :
    source = none ↔ found = none := by
  cases source with
  | none => cases found with
    | none => exact ⟨fun _ => rfl, fun _ => rfl⟩
    | some symbol => exact h.elim
  | some src => cases found with
    | none => cases src <;> exact h.elim
    | some symbol => exact ⟨nofun, nofun⟩

theorem Agrees.symbol_iff {src : Source} (h : Agrees s (some src) (some symbol))
    (hold : symbol' ∈ s.symbols) : src = .symbol symbol' ↔ symbol = symbol' := by
  cases src with
  | fresh =>
    refine ⟨nofun, fun heq => ?_⟩
    exact absurd (heq ▸ hold) h
  | symbol t =>
    obtain ⟨rfl, -⟩ := h
    exact ⟨fun heq => Source.symbol.inj heq, fun heq => heq ▸ rfl⟩

theorem agrees_symbol (h : symbol ∈ s.symbols) : Agrees s (some (.symbol symbol)) (some symbol) :=
  ⟨rfl, h⟩

theorem Agrees.orElse {found found' : Option Symbol} (h : Agrees s source found)
    (h' : found = none → Agrees s source' found') :
    Agrees s (source <|> source') (found <|> found') := by
  cases source with
  | none =>
    obtain rfl := h.eq_none_iff.1 rfl
    exact h' rfl
  | some src =>
    cases found with
    | none => exact absurd (h.eq_none_iff.2 rfl) nofun
    | some symbol => exact h

/-! ## The new package -/

variable {r : Namespaces} {c : Contents}

structure Filled (r : Namespaces) (c : Contents) (s : State) : Prop where
  map : ∀ name, s.packageMap name =
    if name ∈ r.names then some r.self else r.state.packageMap name
  count : s.packageCount = r.self + 1
  others : ∀ q, q ≠ r.self → (s.packages q).useList = (r.state.packages q).useList ∧
    (s.packages q).externalSymbols = (r.state.packages q).externalSymbols ∧
    (s.packages q).internalSymbols = (r.state.packages q).internalSymbols
  uses : (s.packages r.self).useList = c.uses
  usedBy : ∀ q ∈ (s.packages r.self).usedByList, q = r.self
  own : ∀ name, Agrees r.state (c.own name) (s.present r.self name)
  name : ∀ name symbol, s.present r.self name = some symbol → symbol.name = name
  shadowing : ∀ name, (s.packages r.self).shadowingSymbols name ≠ none →
    s.present r.self name ≠ none
  symbols : r.state.symbols.length ≤ s.symbols.length
  home : ∀ symbol ∈ r.state.symbols, s.home symbol = some r.self →
    c.own symbol.name = some (.symbol symbol)

theorem Filled.external (h : Filled r c s) {q : ℕ} (hq : q ≠ r.self) :
    (s.packages q).externalSymbols = (r.state.packages q).externalSymbols := (h.others q hq).2.1

theorem Filled.findSymbol_of_ne (halloc : r.state.Allocated) (h : Filled r c s) {q : ℕ}
    (hq : q ≠ r.self) : s.findSymbol q name = r.state.findSymbol q name := by
  obtain ⟨huse, hexternal, hinternal⟩ := h.others q hq
  unfold State.findSymbol State.present
  rw [huse, hexternal, hinternal, inherited_congr]
  intro q' hq'
  rw [h.external (halloc.useList q q' hq').ne]

theorem present_of_external {q : ℕ} (h : (s.packages q).externalSymbols name = some symbol) :
    s.present q name = some symbol := by
  unfold State.present
  rw [h]
  rfl

theorem exists_present_of_findSymbol {q : ℕ} (h : s.findSymbol q name = some symbol) :
    ∃ q', s.present q' name = some symbol := by
  have hinherited : ∀ packages, s.inherited name packages = some symbol →
      ∃ q', s.present q' name = some symbol := by
    intro packages
    induction packages with
    | nil => exact nofun
    | cons q rest ih =>
      intro hfound
      unfold State.inherited at hfound
      cases hexternal : (s.packages q).externalSymbols name with
      | none =>
        rw [hexternal] at hfound
        exact ih hfound
      | some t =>
        rw [hexternal] at hfound
        exact ⟨q, present_of_external (hexternal.trans hfound)⟩
  unfold State.findSymbol at h
  cases hpresent : s.present q name with
  | none =>
    rw [hpresent] at h
    exact hinherited _ h
  | some t =>
    rw [hpresent] at h
    exact ⟨q, hpresent.trans h⟩

theorem Filled.agrees_inherited (halloc : r.state.Allocated) (h : Filled r c s)
    (hnone : s.present r.self name = none) (packages : List ℕ) :
    Agrees r.state (r.inherited name packages) (s.inherited name packages) := by
  induction packages with
  | nil => exact trivial
  | cons q rest ih =>
    unfold Namespaces.inherited State.inherited
    split
    · rename_i hq
      -- a symbol that is external in the package is present there
      have hexternal : (s.packages q).externalSymbols name = none := by
        rw [hq]
        cases hext : (s.packages r.self).externalSymbols name with
        | none => rfl
        | some t =>
          rw [present_of_external hext] at hnone
          cases hnone
      rw [hexternal]
      exact ih
    · rename_i hq
      rw [h.external hq]
      refine Agrees.orElse ?_ fun _ => ih
      cases hext : (r.state.packages q).externalSymbols name with
      | none => exact trivial
      | some t =>
        exact agrees_symbol ((halloc.present (present_of_external hext)).2)

theorem Filled.agrees_accessible (halloc : r.state.Allocated) (h : Filled r c s) (name : String) :
    Agrees r.state (r.accessible c name) (s.findSymbol r.self name) := by
  unfold Namespaces.accessible State.findSymbol
  rw [h.uses]
  exact (h.own name).orElse fun hnone => h.agrees_inherited halloc hnone c.uses

theorem Filled.agrees_find (halloc : r.state.Allocated) (h : Filled r c s) (q : ℕ) (name : String) :
    Agrees r.state (r.find c q name) (s.findSymbol q name) := by
  unfold Namespaces.find
  split
  · rename_i hq
    rw [hq]
    exact h.agrees_accessible halloc name
  · rename_i hq
    rw [h.findSymbol_of_ne halloc hq]
    cases hfind : r.state.findSymbol q name with
    | none => exact trivial
    | some t =>
      obtain ⟨q', hpresent⟩ := exists_present_of_findSymbol hfind
      exact agrees_symbol ((halloc.present hpresent).2)

theorem Filled.name_of_findSymbol (halloc : r.state.Allocated) (h : Filled r c s) {q : ℕ}
    (hfind : s.findSymbol q name = some symbol) : symbol.name = name := by
  obtain ⟨q', hpresent⟩ := exists_present_of_findSymbol hfind
  by_cases hq : q' = r.self
  · rw [hq] at hpresent
    exact h.name name symbol hpresent
  · obtain ⟨-, hexternal, hinternal⟩ := h.others q' hq
    unfold State.present at hpresent
    rw [hexternal, hinternal] at hpresent
    exact (halloc.present hpresent).1

theorem Filled.freshSymbol (halloc : r.state.Allocated) (h : Filled r c s) (name : String) :
    s.freshSymbol name ∉ r.state.symbols := by
  intro hmem
  have hid := halloc.number _ hmem
  have hlength := h.symbols
  change s.symbols.length < _ at hid
  omega

theorem present_of_packages {package : Package} {p : ℕ}
    (hpackages : s'.packages = Function.update s.packages p package) (n : String) :
    s'.present p n = (package.externalSymbols n <|> package.internalSymbols n) := by
  unfold State.present
  rw [hpackages, Function.update_self]

theorem Filled.put (h : Filled r c s) {src : Source} {package : Package}
    (hname : symbol.name = name) (hagrees : Agrees r.state (some src) (some symbol))
    (hmap : s'.packageMap = s.packageMap) (hcount : s'.packageCount = s.packageCount)
    (hpackages : s'.packages = Function.update s.packages r.self package)
    (hlists : package.useList = (s.packages r.self).useList ∧
      package.usedByList = (s.packages r.self).usedByList)
    (hpresent : ∀ n, (package.externalSymbols n <|> package.internalSymbols n) =
      if n = name then some symbol else s.present r.self n)
    (hshadowing : ∀ n, n ≠ name →
      package.shadowingSymbols n = (s.packages r.self).shadowingSymbols n)
    (hsymbols : s.symbols.length ≤ s'.symbols.length)
    (hhome : ∀ t ∈ r.state.symbols, t.name ≠ name → s'.home t = some r.self →
      s.home t = some r.self)
    (hhere : ∀ t ∈ r.state.symbols, t.name = name → s'.home t = some r.self → src = .symbol t) :
    Filled r (c.add name src) s' := by
  have hself : s'.packages r.self = package := by rw [hpackages, Function.update_self]
  have hpresent' : ∀ n, s'.present r.self n =
      if n = name then some symbol else s.present r.self n := fun n =>
    (present_of_packages hpackages n).trans (hpresent n)
  refine ⟨fun n => ?_, hcount.trans h.count, fun q hq => ?_, ?_, fun q hq => ?_, fun n => ?_,
    fun n t ht => ?_, fun n hn => ?_, h.symbols.trans hsymbols, fun t ht hhome' => ?_⟩
  · rw [hmap]
    exact h.map n
  · rw [hpackages, Function.update_of_ne hq]
    exact h.others q hq
  · rw [hself, hlists.1]
    exact h.uses
  · rw [hself, hlists.2] at hq
    exact h.usedBy q hq
  · rw [hpresent']
    change Agrees _ (Function.update c.own name (some src) n) _
    by_cases hn : n = name
    · rw [if_pos hn, hn, Function.update_self]
      exact hagrees
    · rw [if_neg hn, Function.update_of_ne hn]
      exact h.own n
  · rw [hpresent'] at ht
    split at ht
    · rename_i hn
      rw [← Option.some.inj ht, hn]
      exact hname
    · exact h.name n t ht
  · rw [hpresent']
    split
    · exact nofun
    · rename_i hne
      rw [hself, hshadowing n hne] at hn
      exact h.shadowing n hn
  · change Function.update c.own name (some src) t.name = _
    by_cases hn : t.name = name
    · rw [hn, Function.update_self, hhere t ht hn hhome']
    · rw [Function.update_of_ne hn]
      exact h.home t ht (hhome t ht hn hhome')

/-! ## Following a description -/

/-- Where there is no description an error is signalled, and the package is there. -/
def Follows (r : Namespaces) (R : Contents → State → Prop) :
    Option Contents → Except Failure Unit × State → Prop
  | some c, (.ok _, s) => R c s
  | none, (.error _, s) => s.packageCount = r.self + 1
  | _, _ => False

variable {R R' : Contents → State → Prop}

theorem Follows.bind {o : Option Contents} {g : Contents → Option Contents} {m : Action Unit}
    {k : Unit → Action Unit} (h : Follows r R o (m s))
    (hk : ∀ c s, R c s → Follows r R' (g c) (k () s)) : Follows r R' (o.bind g) ((m >>= k) s) := by
  change Follows r R' _ (Comp.bind m k s)
  unfold Comp.bind
  generalize m s = result at h ⊢
  obtain ⟨result, s'⟩ := result
  cases o with
  | none => cases result with
    | error e => exact h
    | ok a => exact h.elim
  | some c => cases result with
    | error e => exact h.elim
    | ok a => exact hk c s' h

theorem follows_forEach {f : Datum → Contents → Option Contents} {body : Datum → Action Unit}
    (hcount : ∀ c s, R c s → s.packageCount = r.self + 1)
    (h : ∀ d c s, R c s → Follows r R (f d c) (body d s)) (d : Datum) :
    ∀ c s, R c s → Follows r R (describeEach f d c) (forEach body d s) := by
  induction d with
  | nil => exact fun c s hR => hR
  | cons a d _ ih => exact fun c s hR => (h a c s hR).bind ih
  | string _ | symbol _ | character _ | package _ | other => exact fun c s hR => hcount c s hR

theorem follows_checkString {d : Datum} {g : String → Option Contents}
    {k : String → Action Unit} (hcount : s.packageCount = r.self + 1)
    (h : ∀ name, Follows r R (g name) (k name s)) :
    Follows r R (d.stringp?.bind g) ((checkString d >>= k) s) := by
  unfold checkString
  cases d.stringp? with
  | none => exact hcount
  | some name => exact h name

theorem follows_string {d : Datum} {g : String → Option Contents} {k : String → Action Unit}
    (hcount : s.packageCount = r.self + 1) (h : ∀ name, Follows r R (g name) (k name s)) :
    Follows r R (d.string?.bind g) ((string d >>= k) s) := by
  unfold string
  cases d.string? with
  | none => exact hcount
  | some name => exact h name

theorem get_bind (k : State → Action α) (s : State) : (Comp.get >>= k) s = k s s := rfl

theorem perform_bind_none (f : State → State) (k : Unit → Action α) (s : State) :
    (perform (fun s => (none, f s)) >>= k) s = k () (f s) := rfl

theorem findPackage_bind (name : String) (k : Option ℕ → Action α) (s : State) :
    (findPackage name >>= k) s = k (s.packageMap name) s := rfl

theorem follows_coerceToPackage {d : Datum} {g : ℕ → Option Contents} {k : ℕ → Action Unit}
    (hfilled : Filled r c s) (h : ∀ q, Follows r R (g q) (k q s)) :
    Follows r R ((r.denotes d).bind g) ((coerceToPackageAction d >>= k) s) := by
  have hname : ∀ d : Datum, (∀ q, d = .package q → False) →
      Follows r R ((d.string?.bind fun name =>
        if name ∈ r.names then some r.self else r.state.packageMap name).bind g)
        ((coerceToPackageAction d >>= k) s) := by
    intro d hd
    rw [coerceToPackageAction.eq_2 d hd, Option.bind_assoc, bind_assoc]
    refine follows_string hfilled.count fun name => ?_
    rw [← hfilled.map name, bind_assoc, findPackage_bind]
    cases s.packageMap name with
    | none => exact hfilled.count
    | some q => exact h q
  cases d with
  | package q => exact h q
  | nil => exact hname .nil nofun
  | cons a d => exact hname (.cons a d) nofun
  | string n => exact hname (.string n) nofun
  | symbol t => exact hname (.symbol t) nofun
  | character ch => exact hname (.character ch) nofun
  | other => exact hname .other nofun

/-! ## Steps -/

def Internal (r : Namespaces) (s : State) : Prop :=
  ∀ name, (s.packages r.self).externalSymbols name = none

/-- No symbol of the registry before has been taken in. -/
def Homeless (r : Namespaces) (s : State) : Prop :=
  ∀ symbol ∈ r.state.symbols, s.home symbol ≠ some r.self

theorem Filled.makeSymbol (halloc : r.state.Allocated) (h : Filled r c s) {package : Package}
    (hown : c.own name = none)
    (hlists : package.useList = (s.packages r.self).useList ∧
      package.usedByList = (s.packages r.self).usedByList)
    (hpresent : ∀ n, (package.externalSymbols n <|> package.internalSymbols n) =
      if n = name then some (s.freshSymbol name) else s.present r.self n)
    (hshadowing : ∀ n, n ≠ name →
      package.shadowingSymbols n = (s.packages r.self).shadowingSymbols n) :
    Filled r (c.add name .fresh)
      ((s.makeSymbol name (some r.self)).setPackage r.self package) := by
  have hhome : ∀ t ∈ r.state.symbols,
      ((s.makeSymbol name (some r.self)).setPackage r.self package).home t = some r.self →
        s.home t = some r.self := by
    intro t ht hself
    have hne : t ≠ s.freshSymbol name := by
      rintro rfl
      exact h.freshSymbol halloc name ht
    simpa [hne] using hself
  refine h.put (s.freshSymbol_name name) (h.freshSymbol halloc name) rfl rfl rfl hlists hpresent
    hshadowing (Nat.le_succ _) (fun t ht _ => hhome t ht) fun t ht hname hself => ?_
  have hown' := h.home t ht (hhome t ht hself)
  rw [hname, hown] at hown'
  cases hown'

/-- The phases of the definition: before anything is taken in, before the exports, and after. -/
def Shadowing (r : Namespaces) (c : Contents) (s : State) : Prop :=
  (Filled r c s ∧ Internal r s) ∧ Homeless r s

def Importing (r : Namespaces) (c : Contents) (s : State) : Prop := Filled r c s ∧ Internal r s

theorem present_eq_internal (h : Internal r s) (n : String) :
    s.present r.self n = (s.packages r.self).internalSymbols n := by
  unfold State.present
  rw [h n]
  rfl

theorem Filled.own_isSome (h : Filled r c s) (hpresent : s.present r.self name = some symbol) :
    ∃ src, c.own name = some src ∧ Agrees r.state (some src) (some symbol) := by
  have hagrees := h.own name
  rw [hpresent] at hagrees
  cases hown : c.own name with
  | none => exact absurd (hagrees.eq_none_iff.1 hown) nofun
  | some src => exact ⟨src, rfl, hown ▸ hagrees⟩

theorem Filled.own_eq_none (h : Filled r c s) (hpresent : s.present r.self name = none) :
    c.own name = none := (h.own name).eq_none_iff.2 hpresent

theorem Contents.add_self {src : Source} (h : c.own name = some src) : c.add name src = c := by
  unfold Contents.add
  rw [← h, Function.update_eq_self]

theorem follows_shadow (halloc : r.state.Allocated) (d : Datum) (c : Contents) (s : State)
    (h : Shadowing r c s) :
    Follows r (Shadowing r) (Namespaces.shadow d c) (shadowAction r.self d s) := by
  obtain ⟨⟨hfilled, hinternal⟩, hhomeless⟩ := h
  unfold Namespaces.shadow
  rw [Option.map_eq_bind]
  refine follows_checkString hfilled.count fun name => ?_
  change Shadowing r (if (c.own name).isSome then c else c.add name .fresh) (s.shadow r.self name)
  unfold State.shadow
  cases hpresent : s.present r.self name with
  | some symbol =>
    obtain ⟨src, hown, hagrees⟩ := hfilled.own_isSome hpresent
    have hput : Filled r (c.add name src) (s.setPackage r.self { s.packages r.self with
        shadowingSymbols := (s.packages r.self).shadowingSymbols.put symbol }) := by
      refine hfilled.put (hfilled.name name symbol hpresent) hagrees rfl rfl rfl ⟨rfl, rfl⟩
        (fun n => ?_) (fun n hn => ?_) le_rfl (fun _ _ _ => id)
        fun t ht _ hself => absurd hself (hhomeless t ht)
      · change s.present r.self n = _
        split
        · rename_i hn
          rw [hn, hpresent]
        · rfl
      · rw [← hfilled.name name symbol hpresent] at hn
        exact Function.update_of_ne hn _ _
    rw [Contents.add_self hown] at hput
    rw [hown]
    refine ⟨⟨hput, fun n => ?_⟩, hhomeless⟩
    rw [packages_setPackage]
    exact hinternal n
  | none =>
    have hown := hfilled.own_eq_none hpresent
    have hshadowing : (s.packages r.self).shadowingSymbols name = none := by
      by_contra hne
      exact hfilled.shadowing name hne hpresent
    rw [hown]
    dsimp only
    rw [hshadowing]
    have hfresh : Filled r (c.add name .fresh) ((s.makeSymbol name (some r.self)).setPackage r.self
        { s.packages r.self with
          internalSymbols := (s.packages r.self).internalSymbols.put (s.freshSymbol name)
          shadowingSymbols :=
            (s.packages r.self).shadowingSymbols.put (s.freshSymbol name) }) := by
      refine hfilled.makeSymbol halloc hown ⟨rfl, rfl⟩ (fun n => ?_)
        fun n hn => Function.update_of_ne hn _ _
      change ((s.packages r.self).externalSymbols n <|> _) = _
      rw [hinternal n, present_eq_internal hinternal n]
      exact Function.update_apply ..
    refine ⟨⟨hfresh, fun n => ?_⟩, fun t ht => ?_⟩
    · rw [packages_setPackage]
      exact hinternal n
    · have hne : t ≠ s.freshSymbol name := by
        rintro rfl
        exact hfilled.freshSymbol halloc name ht
      simpa [hne] using hhomeless t ht

theorem follows_forEachSymbol (halloc : r.state.Allocated)
    {f : String → Source → Contents → Option Contents} {body : Symbol → Action Unit}
    (hR : ∀ c s, R c s → Filled r c s)
    (h : ∀ name src symbol c s, R c s → symbol.name = name →
      Agrees r.state (some src) (some symbol) →
      (∀ q, r.find c q name = some src → s.findSymbol q name = some symbol →
        Follows r R (f name src c) (body symbol s)))
    (entry : Datum) (c : Contents) (s : State) (hRcs : R c s) :
    Follows r R (r.symbols f entry c) (forEachSymbol body entry s) := by
  have hcount : ∀ c s, R c s → s.packageCount = r.self + 1 := fun c s h => (hR c s h).count
  have hpackage : ∀ package names : Datum, Follows r R
      (r.symbols f (.cons package names) c) (forEachSymbol body (.cons package names) s) := by
    intro package names
    change Follows r R ((r.denotes package).bind _) ((coerceToPackageAction package >>= _) s)
    refine follows_coerceToPackage (hR c s hRcs) fun q => ?_
    refine follows_forEach hcount (fun d c s hRcs => ?_) names c s hRcs
    refine follows_checkString (hcount c s hRcs) fun name => ?_
    have hagrees := (hR c s hRcs).agrees_find halloc q name
    change Follows r R ((r.find c q name).bind _) _
    rw [get_bind]
    cases hfind : s.findSymbol q name with
    | none =>
      rw [hfind] at hagrees
      rw [hagrees.eq_none_iff.2 rfl]
      exact hcount c s hRcs
    | some symbol =>
      rw [hfind] at hagrees
      cases hsource : r.find c q name with
      | none => exact absurd (hagrees.eq_none_iff.1 hsource) nofun
      | some src =>
        rw [hsource] at hagrees
        exact h name src symbol c s hRcs ((hR c s hRcs).name_of_findSymbol halloc hfind) hagrees q
          hsource hfind
  cases entry with
  | nil => exact hpackage .nil .nil
  | cons package names => exact hpackage package names
  | string _ | symbol _ | character _ | package _ | other => exact hcount c s hRcs

theorem shadowingImport_eq {p : ℕ} (hinternal : ∀ n, (s.packages p).externalSymbols n = none)
    (symbol : Symbol) : ∃ package, s.shadowingImport p symbol = s.setPackage p package ∧
      (package.useList = (s.packages p).useList ∧
        package.usedByList = (s.packages p).usedByList) ∧
      (∀ n, package.externalSymbols n = none) ∧
      (∀ n, package.internalSymbols n =
        if n = symbol.name then some symbol else (s.packages p).internalSymbols n) ∧
      ∀ n, n ≠ symbol.name → package.shadowingSymbols n = (s.packages p).shadowingSymbols n := by
  unfold State.shadowingImport
  dsimp only
  cases (s.packages p).internalSymbols symbol.name with
  | some t =>
    refine ⟨_, rfl, ⟨rfl, rfl⟩, hinternal, fun n => ?_, fun n hn => Function.update_of_ne hn _ _⟩
    by_cases hn : n = symbol.name
    · rw [if_pos hn, hn]
      exact Function.update_self ..
    · rw [if_neg hn]
      exact (Function.update_of_ne hn _ _).trans (Function.update_of_ne hn _ _)
  | none =>
    refine ⟨_, rfl, ⟨rfl, rfl⟩, fun n => ?_, fun n => Function.update_apply ..,
      fun n hn => Function.update_of_ne hn _ _⟩
    by_cases hn : n = symbol.name
    · rw [hn]
      exact Function.update_self ..
    · exact (Function.update_of_ne hn _ _).trans (hinternal n)

theorem follows_shadowingImports (halloc : r.state.Allocated) (entry : Datum) (c : Contents)
    (s : State) (h : Shadowing r c s) :
    Follows r (Shadowing r) (r.symbols Namespaces.shadowingImport entry c)
      (forEachSymbol (fun symbol => perform fun s => (none, s.shadowingImport r.self symbol)) entry
        s) := by
  refine follows_forEachSymbol halloc (fun _ _ h => h.1.1) ?_ entry c s h
  rintro name src symbol c s ⟨⟨hfilled, hinternal⟩, hhomeless⟩ rfl hagrees q - -
  change Shadowing r (c.add symbol.name src) (s.shadowingImport r.self symbol)
  obtain ⟨package, heq, hlists, hexternal, hint, hshadowing⟩ :=
    shadowingImport_eq hinternal symbol
  rw [heq]
  refine ⟨⟨hfilled.put rfl hagrees rfl rfl rfl hlists (fun n => ?_) hshadowing le_rfl
    (fun _ _ _ => id) fun t ht _ hself => absurd hself (hhomeless t ht), fun n => ?_⟩, hhomeless⟩
  · rw [hexternal, hint, present_eq_internal hinternal]
    rfl
  · rw [packages_setPackage]
    exact hexternal n

theorem usePackage_shadowingSymbols {p q r : ℕ} :
    ((s.usePackage p r).packages q).shadowingSymbols = (s.packages q).shadowingSymbols := by
  unfold State.usePackage
  split
  · rfl
  · by_cases hr : q = r <;> by_cases hp : q = p <;> by_cases hrp : r = p <;> simp_all

theorem follows_use (hR : ∀ c s, R c s → Filled r c s)
    (hkeeps : ∀ c c' s q, R c s → Filled r c' (s.usePackage r.self q) → R c' (s.usePackage r.self
      q))
    (d : Datum) (c : Contents) (s : State) (h : R c s) :
    Follows r R (r.use d c) (usePackageAction r.self d s) := by
  have hfilled := hR c s h
  unfold Namespaces.use
  rw [Option.map_eq_bind]
  refine follows_coerceToPackage hfilled fun q => ?_
  change R (if q ∈ c.uses then c else { c with uses := q :: c.uses }) (s.usePackage r.self q)
  by_cases hq : q ∈ c.uses
  · have hsame : s.usePackage r.self q = s := if_pos (hfilled.uses ▸ hq)
    rw [if_pos hq, hsame]
    exact h
  have hq' : q ∉ (s.packages r.self).useList := fun hmem => hq (hfilled.uses ▸ hmem)
  rw [if_neg hq]
  refine hkeeps c _ s q h ?_
  have hsame : (s.usePackage r.self q).packageMap = s.packageMap ∧
      (s.usePackage r.self q).packageCount = s.packageCount ∧
      (s.usePackage r.self q).symbols = s.symbols ∧ (s.usePackage r.self q).home = s.home := by
    unfold State.usePackage
    rw [if_neg hq']
    exact ⟨rfl, rfl, rfl, rfl⟩
  obtain ⟨hmap, hcount, hsymbols, hhome⟩ := hsame
  refine ⟨fun n => ?_, hcount.trans hfilled.count, fun q' hq' => ?_, ?_, fun q' hq' => ?_,
    fun n => ?_, fun n t ht => ?_, fun n hn => ?_, ?_, fun t ht hself => ?_⟩
  · rw [hmap]
    exact hfilled.map n
  · rw [(usePackage_tables q').1, (usePackage_tables q').2, State.usePackage_useList ‹_›, if_neg
      hq']
    exact hfilled.others q' hq'
  · rw [State.usePackage_useList hq', if_pos rfl, hfilled.uses]
  · rw [State.usePackage_usedByList ‹_›] at hq'
    split at hq'
    · rename_i hself
      rcases List.mem_cons.1 hq' with rfl | hmem
      · rfl
      · exact hfilled.usedBy q' (hself ▸ hmem)
    · exact hfilled.usedBy q' hq'
  · rw [present_usePackage]
    exact hfilled.own n
  · rw [present_usePackage] at ht
    exact hfilled.name n t ht
  · rw [present_usePackage]
    rw [usePackage_shadowingSymbols] at hn
    exact hfilled.shadowing n hn
  · rw [hsymbols]
    exact hfilled.symbols
  · rw [hhome] at hself
    exact hfilled.home t ht hself

theorem Namespaces.accessible_of_own {src : Source} (h : c.own name = some src) :
    r.accessible c name = some src := by
  unfold Namespaces.accessible
  rw [h]
  rfl

theorem Namespaces.inherited_ne_fresh (packages : List ℕ) :
    r.inherited name packages ≠ some .fresh := by
  induction packages with
  | nil => exact nofun
  | cons q rest ih =>
    unfold Namespaces.inherited
    split
    · exact ih
    · cases (r.state.packages q).externalSymbols name with
      | none => exact ih
      | some t => exact nofun

theorem Namespaces.own_of_find_fresh {q : ℕ} (h : r.find c q name = some .fresh) :
    q = r.self ∧ c.own name = some .fresh := by
  unfold Namespaces.find at h
  split at h
  · refine ⟨‹_›, ?_⟩
    unfold Namespaces.accessible at h
    cases hown : c.own name with
    | none =>
      rw [hown] at h
      exact absurd h (inherited_ne_fresh c.uses)
    | some src =>
      rw [hown] at h
      exact h
  · cases hfind : r.state.findSymbol q name <;> rw [hfind] at h <;> cases h

structure Found (r : Namespaces) (c : Contents) (s : State) (symbol : Symbol) (src : Source) :
    Prop where
  agrees : Agrees r.state (some src) (some symbol)
  own_of_home : s.home symbol = some r.self → c.own symbol.name = some src
  eq_iff : ∀ src' symbol', r.accessible c symbol.name = some src' →
    s.findSymbol r.self symbol.name = some symbol' → (src' = src ↔ symbol' = symbol)

theorem Filled.found (halloc : r.state.Allocated) (h : Filled r c s) {src : Source} {q : ℕ}
    (hagrees : Agrees r.state (some src) (some symbol))
    (hfind : r.find c q symbol.name = some src)
    (hfound : s.findSymbol q symbol.name = some symbol) : Found r c s symbol src := by
  refine ⟨hagrees, fun hhome => ?_, fun src' symbol' hsrc' hsymbol' => ?_⟩
  · cases src with
    | fresh => exact (Namespaces.own_of_find_fresh hfind).2
    | symbol t =>
      obtain ⟨rfl, hold⟩ := hagrees
      exact h.home symbol hold hhome
  · cases src with
    | fresh =>
      obtain ⟨rfl, hown⟩ := Namespaces.own_of_find_fresh hfind
      rw [Namespaces.accessible_of_own hown] at hsrc'
      rw [hfound] at hsymbol'
      exact ⟨fun _ => (Option.some.inj hsymbol').symm, fun _ => (Option.some.inj hsrc').symm⟩
    | symbol t =>
      obtain ⟨rfl, hold⟩ := hagrees
      have hagrees' := h.agrees_accessible halloc symbol.name
      rw [hsrc', hsymbol'] at hagrees'
      exact hagrees'.symbol_iff hold

theorem Found.eq_symbol {src : Source} (hfound : Found r c s symbol src) (hfilled : Filled r c s)
    (hsame : ∀ src', r.accessible c symbol.name = some src' → src' = src) {t : Symbol}
    (ht : t ∈ r.state.symbols) (hname : t.name = symbol.name)
    (hhome : s.home t = some r.self ∨ t = symbol) : src = .symbol t := by
  rcases hhome with hhome | rfl
  · have hown := hfilled.home t ht hhome
    rw [hname] at hown
    exact (hsame _ (Namespaces.accessible_of_own hown)).symm
  · exact (hfound.agrees.symbol_iff ht).2 rfl

theorem filled_importSymbol (h : Importing r c s) {src : Source}
    (hfound : Found r c s symbol src)
    (hsame : ∀ src', r.accessible c symbol.name = some src' → src' = src) :
    Importing r (c.add symbol.name src)
      (if s.home symbol = none then
        (s.setPackage r.self { s.packages r.self with
          internalSymbols := (s.packages r.self).internalSymbols.put symbol }).setHome symbol
            (some r.self)
      else s.setPackage r.self { s.packages r.self with
        internalSymbols := (s.packages r.self).internalSymbols.put symbol }) := by
  obtain ⟨hfilled, hinternal⟩ := h
  have hpresent : ∀ n, ((s.packages r.self).externalSymbols n <|>
      (s.packages r.self).internalSymbols.put symbol n) =
        if n = symbol.name then some symbol else s.present r.self n := by
    intro n
    rw [hinternal n, present_eq_internal hinternal n]
    exact Function.update_apply ..
  split
  · refine ⟨hfilled.put rfl hfound.agrees rfl rfl rfl ⟨rfl, rfl⟩ hpresent (fun _ _ => rfl) le_rfl
      (fun t _ hne hhome => ?_) fun t ht hname hhome => ?_, fun n => ?_⟩
    · rw [State.setHome_home, Function.update_of_ne fun heq : t = symbol => hne (congrArg
        Symbol.name heq)] at hhome
      exact hhome
    · refine hfound.eq_symbol hfilled hsame ht hname ?_
      by_cases heq : t = symbol
      · exact Or.inr heq
      · rw [State.setHome_home, Function.update_of_ne heq] at hhome
        exact Or.inl hhome
    · rw [State.setHome_packages, packages_setPackage]
      exact hinternal n
  · refine ⟨hfilled.put rfl hfound.agrees rfl rfl rfl ⟨rfl, rfl⟩ hpresent (fun _ _ => rfl) le_rfl
      (fun _ _ _ => id) fun t ht hname hhome =>
        hfound.eq_symbol hfilled hsame ht hname (Or.inl hhome), fun n => ?_⟩
    rw [packages_setPackage]
    exact hinternal n

theorem follows_imports (halloc : r.state.Allocated) (entry : Datum) (c : Contents) (s : State)
    (h : Importing r c s) :
    Follows r (Importing r) (r.symbols r.importSymbol entry c)
      (forEachSymbol (fun symbol => perform (·.importSymbol r.self symbol)) entry s) := by
  refine follows_forEachSymbol halloc (fun _ _ h => h.1) ?_ entry c s h
  rintro name src symbol c s h rfl hagrees q hfind hfound
  have hsymbol := h.1.found halloc hagrees hfind hfound
  have haccessible := h.1.agrees_accessible halloc symbol.name
  unfold perform State.importSymbol Namespaces.importSymbol
  dsimp only
  by_cases hhome : s.home symbol = some r.self
  · have hown := hsymbol.own_of_home hhome
    rw [if_pos hhome, Namespaces.accessible_of_own hown]
    dsimp only
    rw [if_pos rfl, Contents.add_self hown]
    exact h
  rw [if_neg hhome]
  cases hother : s.findSymbol r.self symbol.name with
  | none =>
    rw [hother] at haccessible
    have hnone := haccessible.eq_none_iff.2 rfl
    rw [hnone]
    exact filled_importSymbol h hsymbol fun src' hsrc' => absurd (hnone.symm.trans hsrc') nofun
  | some symbol' =>
    rw [hother] at haccessible
    cases hsrc' : r.accessible c symbol.name with
    | none => exact absurd (haccessible.eq_none_iff.1 hsrc') nofun
    | some src' =>
      have hiff := hsymbol.eq_iff src' symbol' hsrc' hother
      by_cases heq : symbol' = symbol
      · have hsame := hiff.2 heq
        rw [show (some symbol').filter (· ≠ symbol) = none by simp [heq]]
        dsimp only
        rw [if_pos hsame]
        refine filled_importSymbol h hsymbol fun src'' hsrc'' => ?_
        exact (Option.some.inj (hsrc''.symm.trans hsrc')).trans hsame
      · rw [show (some symbol').filter (· ≠ symbol) = some symbol' by simp [heq]]
        dsimp only
        rw [if_neg fun hsame => heq (hiff.1 hsame)]
        exact h.1.count

def Namespaces.interned (r : Namespaces) (c : Contents) (name : String) : Contents :=
  if (r.accessible c name).isSome then c else c.add name .fresh

theorem filled_intern (halloc : r.state.Allocated) {keyword : ℕ} (hkeyword : r.self ≠ keyword)
    (h : Filled r c s) (name : String) :
    Filled r (r.interned c name) (s.intern keyword r.self name false) := by
  have haccessible := h.agrees_accessible halloc name
  unfold Namespaces.interned State.intern
  cases hfind : s.findSymbol r.self name with
  | some symbol =>
    rw [hfind] at haccessible
    have hsome : (r.accessible c name).isSome := by
      rw [Option.isSome_iff_ne_none]
      exact fun hnone => absurd (haccessible.eq_none_iff.1 hnone) nofun
    rw [if_pos hsome]
    exact h
  | none =>
    rw [hfind] at haccessible
    rw [haccessible.eq_none_iff.2 rfl]
    have hpresent := present_of_findSymbol hfind
    have hinternal : ¬ (r.self = keyword ∨ false = true) := by simp [hkeyword]
    dsimp only
    rw [if_neg hinternal]
    refine h.makeSymbol halloc (h.own_eq_none hpresent) ⟨rfl, rfl⟩ (fun n => ?_) fun _ _ => rfl
    change ((s.packages r.self).externalSymbols n <|> (Function.update
      (s.packages r.self).internalSymbols (s.freshSymbol name).name (some (s.freshSymbol name))
        n : Option Symbol)) = _
    rw [s.freshSymbol_name]
    by_cases hn : n = name
    · rw [if_pos hn, hn, (present_eq_none.1 hpresent).1, Function.update_self]
      rfl
    · rw [if_neg hn, Function.update_of_ne hn]
      rfl

theorem internal_intern {keyword : ℕ} (hkeyword : r.self ≠ keyword) (h : Internal r s)
    (name : String) : Internal r (s.intern keyword r.self name false) := by
  intro n
  unfold State.intern
  split
  · exact h n
  · dsimp only
    rw [if_neg (by simp [hkeyword]), packages_setPackage]
    exact h n

theorem follows_interns (halloc : r.state.Allocated) {keyword : ℕ} (hkeyword : r.self ≠ keyword)
    (d : Datum) (c : Contents) (s : State) (h : Importing r c s) :
    Follows r (Importing r) (r.intern d c) (internAction keyword r.self d s) := by
  unfold Namespaces.intern
  rw [Option.map_eq_bind]
  refine follows_checkString h.1.count fun name => ?_
  exact ⟨filled_intern halloc hkeyword h.1 name, internal_intern hkeyword h.2 name⟩

theorem findSymbol_intern {keyword p : ℕ} (hkeyword : p ≠ keyword) (name : String) :
    ∃ symbol, (s.intern keyword p name false).findSymbol p name = some symbol := by
  unfold State.intern
  cases hfind : s.findSymbol p name with
  | some symbol => exact ⟨symbol, hfind⟩
  | none =>
    refine ⟨s.freshSymbol name, findSymbol_of_present ?_⟩
    dsimp only
    rw [if_neg (by simp [hkeyword])]
    unfold State.present
    rw [packages_setPackage]
    change ((s.packages p).externalSymbols name <|> (Function.update
      (s.packages p).internalSymbols (s.freshSymbol name).name (some (s.freshSymbol name))
        name : Option Symbol)) = _
    rw [(present_eq_none.1 (present_of_findSymbol hfind)).1, s.freshSymbol_name,
      Function.update_self]
    rfl

theorem Filled.exportConflict (h : Filled r c s)
    (hfind : s.findSymbol r.self symbol.name = some symbol) :
    s.exportConflict symbol (s.packages r.self).usedByList = none := by
  have hpackages := h.usedBy
  generalize (s.packages r.self).usedByList = packages at hpackages
  induction packages with
  | nil => rfl
  | cons q rest ih =>
    have hrest := ih fun q hq => hpackages q (List.mem_cons_of_mem _ hq)
    obtain rfl := hpackages q List.mem_cons_self
    unfold State.exportConflict
    cases hexternal : (s.packages r.self).externalSymbols symbol.name with
    | none => exact hrest
    | some t =>
      have ht := findSymbol_of_present (present_of_external hexternal)
      obtain rfl := Option.some.inj (hfind.symm.trans ht)
      dsimp only
      rw [if_neg (by simp)]
      exact hrest

theorem filled_exportSymbol (halloc : r.state.Allocated) (h : Filled r c s) {src : Source}
    (haccessible : r.accessible c symbol.name = some src)
    (hfind : s.findSymbol r.self symbol.name = some symbol) :
    ∃ s', s.exportSymbol r.self symbol = (none, s') ∧ Filled r (c.add symbol.name src) s' := by
  have hagrees := h.agrees_accessible halloc symbol.name
  rw [haccessible, hfind] at hagrees
  have hmake : Filled r (c.add symbol.name src) (s.makeExternal r.self symbol) := by
    refine h.put rfl hagrees rfl rfl rfl ⟨rfl, rfl⟩ (fun n => ?_) (fun _ _ => rfl) le_rfl
      (fun _ _ _ => id) fun t ht hname hhome => ?_
    · have hmade : (s.makeExternal r.self symbol).present r.self n = _ :=
        present_of_packages rfl n
      rw [← hmade, present_makeExternal]
      simp
    · have hown := Namespaces.accessible_of_own (r := r) (h.home t ht hhome)
      rw [hname, haccessible] at hown
      exact Option.some.inj hown
  unfold State.exportSymbol
  rw [h.exportConflict hfind]
  dsimp only
  split
  · split
    · rename_i hexternal
      refine ⟨s, rfl, ?_⟩
      obtain ⟨src', hown, -⟩ := h.own_isSome (present_of_external hexternal)
      have hsrc := Namespaces.accessible_of_own (r := r) hown
      obtain rfl := Option.some.inj (haccessible.symm.trans hsrc)
      rw [Contents.add_self hown]
      exact h
    · exact ⟨_, rfl, hmake⟩
  · rw [if_neg (by simp [hfind])]
    exact ⟨_, rfl, hmake⟩

theorem Namespaces.accessible_interned :
    r.accessible (r.interned c name) name = some ((r.accessible c name).getD .fresh) := by
  unfold Namespaces.interned
  cases haccessible : r.accessible c name with
  | some src => exact haccessible
  | none => exact accessible_of_own (Function.update_self ..)

theorem Namespaces.interned_add (src : Source) :
    (r.interned c name).add name src = c.add name src := by
  unfold Namespaces.interned
  split
  · rfl
  · unfold Contents.add
    rw [Function.update_idem]

theorem follows_exports (halloc : r.state.Allocated) {keyword : ℕ} (hkeyword : r.self ≠ keyword)
    (d : Datum) (c : Contents) (s : State) (h : Filled r c s) :
    Follows r (Filled r) (r.exportSymbol d c) (exportAction keyword r.self d s) := by
  unfold Namespaces.exportSymbol
  rw [Option.map_eq_bind]
  refine follows_checkString h.count fun name => ?_
  have hinterned := filled_intern halloc hkeyword h name
  obtain ⟨symbol, hfind⟩ := findSymbol_intern (s := s) hkeyword name
  have hname := hinterned.name_of_findSymbol halloc hfind
  subst hname
  obtain ⟨s', hexport, hfilled⟩ := filled_exportSymbol halloc hinterned
    Namespaces.accessible_interned hfind
  rw [Namespaces.interned_add] at hfilled
  change Follows r (Filled r) (some (c.add symbol.name _)) _
  rw [perform_bind_none, get_bind, hfind]
  unfold perform
  dsimp only
  rw [hexport]
  exact hfilled

/-- **The package is filled as it is described**, and where it is not described an error is
signalled. -/
theorem follows_fillPackage (halloc : r.state.Allocated) {keyword : ℕ}
    (hkeyword : r.self ≠ keyword) (d : Declaration) {s : State} (h : Shadowing r .empty s) :
    Follows r (Filled r) (r.describe d) (fillPackage keyword r.self d s) := by
  have hcount : ∀ c s, Importing r c s → s.packageCount = r.self + 1 := fun c s h => h.1.count
  have hshadowing : ∀ c s, Shadowing r c s → s.packageCount = r.self + 1 :=
    fun c s h => h.1.1.count
  unfold Namespaces.describe fillPackage
  refine (follows_forEach hshadowing (follows_shadow halloc) d.shadows _ _ h).bind fun c s h => ?_
  refine (follows_forEach hshadowing (follows_shadowingImports halloc) d.shadowingImports _ _
    h).bind fun c s h => ?_
  refine Follows.bind (R := Importing r) ?_ fun c s h => ?_
  · refine follows_forEach hcount (follows_use (fun _ _ h => h.1) fun c c' s q h hfilled => ?_)
      d.use c s h.1
    refine ⟨hfilled, fun n => ?_⟩
    rw [(usePackage_tables r.self).1]
    exact h.2 n
  refine (follows_forEach hcount (follows_imports halloc) d.imports _ _ h).bind fun c s h => ?_
  refine (follows_forEach hcount (follows_interns halloc hkeyword) d.interns _ _ h).bind
    fun c s h => ?_
  exact follows_forEach (fun _ _ h => h.count) (follows_exports halloc hkeyword) d.exports c s h.1

end Xcl.Packages
