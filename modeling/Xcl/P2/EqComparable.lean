import Xcl.P2.ListDelete
import Xcl.Types.Unions

/-!
# `EQ` for `EQL`

* `DerivedType`: the results of `derive-type`;
* **`eqComparable_iff`**: exactly where the compiler may replace `EQL` by `EQ`.
-/

namespace Xcl.P2

open Types
open Numbers (InFixnumRange)

/-- What `derive-type` returns: `:unknown`, or a canonical type. -/
inductive DerivedType
  | unknown
  | type (specifier : Specifier)

def DerivedType.Has (up : Upgrading) : DerivedType → Object → Prop
  | unknown, _ => True
  | type specifier, x => specifier.Has up .standard x

def DerivedType.Canonical : DerivedType → Prop
  | unknown => True
  | type specifier => Types.Canonical specifier

def fixnumBound : Bound ℤ → Bool
  | .incl n => InFixnumRange n
  | _ => false

def fixnumTypeP : Specifier → Bool
  | .integer args => fixnumBound (bounds args).1 && fixnumBound (bounds args).2
  | _ => false

/-- `subtypep`, with the table. -/
abbrev Subtypep := Specifier → Specifier → Cache → Reply

variable (subtypep : Subtypep)

def eqComparableTypeP (type : Specifier) (cache : Cache) : Option (Bool × Cache) :=
  if fixnumTypeP type then some (true, cache)
  else do
    let (number, cache) ← subtypep type (.atom .number) cache
    if number.value then some (false, cache)
    else
      let (array, cache) ← subtypep type (.atom .array) cache
      if array.value then some (true, cache)
      else
        match type with
        | .atom name => some (name ≠ .t, cache)
        | _ => some (false, cache)

def eqComparableTypesP : DerivedType → DerivedType → Cache → Option (Bool × Cache)
  | .unknown, .unknown, cache => some (false, cache)
  | .unknown, .type type2, cache => eqComparableTypeP subtypep type2 cache
  | .type type1, .unknown, cache => eqComparableTypeP subtypep type1 cache
  | .type type1, .type type2, cache => do
    let (comparable, cache) ← eqComparableTypeP subtypep type1 cache
    if comparable then some (true, cache) else eqComparableTypeP subtypep type2 cache

/-- The predicates between which the compiler chooses. -/
inductive Predicate
  | eq
  | eql
  deriving DecidableEq

def Predicate.holds : Predicate → Object → Object → Bool
  | eq => Types.eq
  | eql => Types.eql

/-- `p2-eql`: the predicate that is called. -/
def p2Eql (type1 type2 : DerivedType) (cache : Cache) : Option (Predicate × Cache) := do
  let (comparable, cache) ← eqComparableTypesP subtypep type1 type2 cache
  some (if comparable then .eq else .eql, cache)

/-- The arguments of `DELETE` after the first two. -/
inductive DeleteKeys
  | none
  /-- `:TEST` with one of the two symbols, or with anything else. -/
  | test (predicate : Option Predicate)
  | other

/-- The choice of `p2-delete` where there are no keys: `LIST-DELETE-EQ` or `LIST-DELETE-EQL`. -/
def p2DeleteOperator : DerivedType → Cache → Option (Predicate × Cache)
  | .unknown, cache => some (.eql, cache)
  | .type type1, cache =>
    if fixnumTypeP type1 then some (.eq, cache)
    else do
      let (number, cache) ← subtypep type1 (.atom .number) cache
      some (if number.value then .eql else .eq, cache)

/-- `p2-delete`: the list operation that is called, if any. -/
def p2Delete (type1 type2 : DerivedType) (keys : DeleteKeys) (cache : Cache) :
    Option (Option Predicate × Cache) :=
  match type2 with
  | .unknown => some (none, cache)
  | .type type2 => do
    let (list, cache) ← subtypep type2 (.atom .list) cache
    if list.value then
      match keys with
      | .none => do
        let (operator, cache) ← p2DeleteOperator subtypep type1 cache
        some (some operator, cache)
      | .test predicate => some (predicate, cache)
      | .other => some (none, cache)
    else some (none, cache)

/-! ## Boxed numbers -/

/-- The numbers that are not immediate. -/
def boxed : Object → Bool
  | .integer _ n => ¬ InFixnumRange n
  | .ratio _ _ | .float _ _ _ _ | .complex _ _ _ => true
  | _ => false

theorem eql_eq_of_not_boxed {x y : Object} (h : boxed x = false ∨ boxed y = false) :
    eql x y = Types.eq x y := by
  cases x with
  | integer address n =>
    cases y with
    | integer address' m =>
      by_cases hnm : n = m
      · have hrange : InFixnumRange n := by
          rcases h with h | h
          · simpa [boxed] using h
          · simpa [boxed, hnm] using h
        simp [eql, Types.eq, hnm, hnm ▸ hrange]
      · simp [eql, Types.eq, hnm]
    | _ => rfl
  | ratio | float | complex =>
    cases y with
    | ratio | float | complex => rcases h with h | h <;> cases h
    | _ => rfl
  | _ => cases y <;> rfl

/-- Another number that is `EQL`, and not `EQ`. -/
def copy : Object → Object
  | .integer address n => .integer (address + 1) n
  | .ratio address q => .ratio (address + 1) q
  | .float address format negative magnitude => .float (address + 1) format negative magnitude
  | .complex address realpart imagpart => .complex (address + 1) realpart imagpart
  | x => x

theorem eql_refl (x : Object) : eql x x = true := eql_iff.mpr rfl

theorem copy_spec {x : Object} (h : boxed x = true) :
    eql x (copy x) = true ∧ Types.eq x (copy x) = false ∧ eql (copy x) x = true ∧
      Types.eq (copy x) x = false ∧ ¬ IsCons (copy x) := by
  have hcons : ¬ IsCons (copy x) := by
    rintro ⟨_, _, _, hx⟩
    cases x <;> cases hx
    cases h
  cases x with
  | integer address n => simp_all [copy, eql, Types.eq, boxed]
  | ratio address q => simp_all [copy, eql, Types.eq, boxed]
  | float address format negative magnitude => simp_all [copy, eql, Types.eq, boxed]
  | complex address realpart imagpart =>
    simp_all [copy, eql, Types.eq, boxed, eql_refl]
  | _ => cases h

/-! ## The types that are accepted -/

section

variable {up : Upgrading}

theorem not_boxed_hasArray {name : ArrayName} {elements : ElementType → Prop}
    {dimensions : Dimensions} {x : Object} (h : HasArray name elements dimensions x) :
    boxed x = false := by
  obtain ⟨array, rfl, -⟩ := h
  rfl

theorem not_boxed_name {name : Name} (hpart : Part (.atom name)) (hnumeric : name.numeric = false)
    (ht : name ≠ .t) (hatom : name ≠ .atom) {x : Object} (h : name.Has x) : boxed x = false := by
  obtain ⟨-, hcanonical, hstar⟩ := hpart
  cases name with
  | t => exact absurd rfl ht
  | atom => exact absurd rfl hatom
  | star => exact absurd rfl hstar
  | sequence =>
    rcases h with rfl | ⟨_, _, _, rfl⟩ | h
    · rfl
    · rfl
    · exact not_boxed_hasArray h
  | list => rcases h with rfl | ⟨_, _, _, rfl⟩ <;> rfl
  | null =>
    rw [show x = .null from h]
    rfl
  | symbol => rcases h with rfl | ⟨_, _, rfl⟩ <;> rfl
  | boolean => rcases h with rfl | rfl <;> rfl
  | keyword =>
    obtain ⟨_, rfl⟩ := h
    rfl
  | character =>
    obtain ⟨_, rfl⟩ := h
    rfl
  | baseChar =>
    obtain ⟨_, rfl⟩ := h
    rfl
  | standardChar =>
    obtain ⟨_, rfl, -⟩ := h
    rfl
  | extendedChar => exact h.elim
  | nilVector =>
    have harray : HasArray .array (· = .nil) (.list [.star]) x := h
    exact not_boxed_hasArray harray
  | other className =>
    obtain ⟨_, _, rfl⟩ := h
    rfl
  | _ => first | (cases hcanonical; done) | (cases hnumeric; done)

theorem not_boxed_part {type : Specifier} (h : type.underArray = true) {x : Object}
    (hx : type.Has up .standard x) : boxed x = false := by
  cases type with
  | atom name =>
    rcases Bool.or_eq_true_iff.mp h with hname | hname
    · rw [of_decide_eq_true hname] at hx
      exact hx.elim
    · rw [of_decide_eq_true hname] at hx
      have harray : HasArray .array (· = .nil) (.list [.star]) x := hx
      exact not_boxed_hasArray harray
  | array2 => exact not_boxed_hasArray hx
  | _ => cases h

theorem not_boxed_all : ∀ {types : Specifiers}, types.all Specifier.underArray = true →
    ∀ {x : Object}, Specifiers.Any up .standard types x → boxed x = false
  | .nil, _, _, hx => hx.elim
  | .cons _ _, h, _, hx => by
    rw [Specifiers.all, Bool.and_eq_true] at h
    rcases hx with hx | hx
    · exact not_boxed_part h.1 hx
    · exact not_boxed_all h.2 hx

theorem not_boxed_underArray {type : Specifier}
    (h : type.throughout Specifier.underArray = true) {x : Object}
    (hx : type.Has up .standard x) : boxed x = false := by
  cases type with
  | or types => exact not_boxed_all h hx
  | _ =>
    refine not_boxed_part ?_ hx
    exact h

theorem not_boxed_fixnumTypeP {type : Specifier} (h : fixnumTypeP type = true) {x : Object}
    (hx : type.Has up .standard x) : boxed x = false := by
  cases type with
  | integer args =>
    obtain ⟨_, n, rfl, hlow, hhigh⟩ := hx
    rw [fixnumTypeP, Bool.and_eq_true] at h
    obtain ⟨h1, h2⟩ := h
    have hbounds : ∀ bound : Bound ℤ, fixnumBound bound = true →
        ∃ m, bound = .incl m ∧ InFixnumRange m := by
      intro bound hbound
      cases bound with
      | incl m => exact ⟨m, rfl, of_decide_eq_true hbound⟩
      | _ => cases hbound
    obtain ⟨low, hlow', hlowRange⟩ := hbounds _ h1
    obtain ⟨high, hhigh', hhighRange⟩ := hbounds _ h2
    rw [hlow'] at hlow
    rw [hhigh'] at hhigh
    have hrange : InFixnumRange n := ⟨hlowRange.1.trans hlow, le_trans hhigh hhighRange.2⟩
    simpa [boxed] using hrange
  | _ => cases h

end

/-! ## The decisions -/

section

variable (typep : Object → Specifier → Bool) (depth : ℕ)

/-- A canonical type that is accepted is `ATOM`, or without boxed numbers. -/
theorem eqComparableTypeP_spec (up : Upgrading) {type : Specifier} (h : Types.Canonical type)
    {cache : Cache} (hcache : ExactCache cache) :
    ∃ comparable cache',
      eqComparableTypeP (percentSubtypep typep (depth + 2)) type cache =
        some (comparable, cache') ∧
      ExactCache cache' ∧ (type = .atom .atom → comparable = true) ∧
      (comparable = true → type = .atom .atom ∨
        ∀ x, type.Has up .standard x → boxed x = false) := by
  rw [eqComparableTypeP]
  by_cases hfixnum : fixnumTypeP type = true
  · rw [if_pos hfixnum]
    exact ⟨true, cache, rfl, hcache, fun _ => rfl,
      fun _ => .inr fun _ => not_boxed_fixnumTypeP hfixnum⟩
  rw [if_neg hfixnum]
  obtain ⟨number, cache1, hnumber, hcache1, hnumeric⟩ :=
    @percentSubtypep_number typep type h depth cache hcache
  rw [hnumber]
  dsimp only [Option.bind_eq_bind, Option.bind_some]
  by_cases hvalue1 : number.value = true
  · refine ⟨false, cache1, if_pos hvalue1, hcache1, ?_, fun h => by cases h⟩
    rintro rfl
    rw [hnumeric] at hvalue1
    cases hvalue1
  obtain ⟨array, cache2, harray, hcache2, harrays⟩ :=
    @percentSubtypep_array typep type h depth cache1 hcache1
  rw [if_neg hvalue1, harray]
  dsimp only [Option.bind_some]
  by_cases hvalue2 : array.value = true
  · rw [if_pos hvalue2]
    exact ⟨true, cache2, rfl, hcache2, fun _ => rfl,
      fun _ => .inr fun _ => not_boxed_underArray (harrays hvalue2)⟩
  rw [if_neg hvalue2]
  cases type with
  | atom name =>
    refine ⟨_, cache2, rfl, hcache2, ?_, fun hname => ?_⟩
    · rintro ⟨rfl⟩
      rfl
    · by_cases hatom : name = .atom
      · exact .inl (congrArg Specifier.atom hatom)
      · have hnumber : name.numeric = false :=
          hnumeric.symm.trans (Bool.eq_false_iff.mpr hvalue1)
        exact .inr fun _ => not_boxed_name h hnumber (of_decide_eq_true hname) hatom
  | _ => exact ⟨false, cache2, rfl, hcache2, (fun h => by cases h), (fun h => by cases h)⟩

/-- The operation for a canonical type, which compares by `EQL` for types of numbers except
fixnums. -/
theorem p2DeleteOperator_spec {type : Specifier} (h : Types.Canonical type) {cache : Cache}
    (hcache : ExactCache cache) :
    ∃ cache', p2DeleteOperator (percentSubtypep typep (depth + 2)) (.type type) cache =
      some (if fixnumTypeP type = true ∨ type.throughout Specifier.numeric = false then .eq
        else .eql, cache') := by
  rw [p2DeleteOperator]
  by_cases hfixnum : fixnumTypeP type = true
  · rw [if_pos hfixnum, if_pos (.inl hfixnum)]
    exact ⟨_, rfl⟩
  obtain ⟨number, cache1, hnumber, -, hnumeric⟩ :=
    @percentSubtypep_number typep type h depth cache hcache
  rw [if_neg hfixnum, hnumber, ← hnumeric]
  refine ⟨cache1, ?_⟩
  cases hvalue : number.value <;> simp [hvalue, hfixnum]

theorem eqComparableTypesP_spec (up : Upgrading) {type1 type2 : DerivedType}
    (h1 : type1.Canonical) (h2 : type2.Canonical) {cache : Cache} (hcache : ExactCache cache) :
    ∃ comparable cache',
      eqComparableTypesP (percentSubtypep typep (depth + 2)) type1 type2 cache =
        some (comparable, cache') ∧
      (type1 = .type (.atom .atom) ∨ type2 = .type (.atom .atom) → comparable = true) ∧
      (comparable = true → type1 = .type (.atom .atom) ∨ type2 = .type (.atom .atom) ∨
        (∀ x, type1.Has up x → boxed x = false) ∨ ∀ y, type2.Has up y → boxed y = false) := by
  cases type1 with
  | unknown =>
    cases type2 with
    | unknown =>
      refine ⟨false, cache, rfl, ?_, fun h => by cases h⟩
      rintro (h | h) <;> cases h
    | type type2 =>
      obtain ⟨comparable, cache', hcall, -, hatom, hboxed⟩ :=
        eqComparableTypeP_spec typep depth up h2 hcache
      refine ⟨comparable, cache', hcall, ?_, fun h => ?_⟩
      · rintro (h | h)
        · cases h
        · exact hatom (DerivedType.type.inj h)
      · rcases hboxed h with rfl | h
        · exact .inr (.inl rfl)
        · exact .inr (.inr (.inr h))
  | type type1 =>
    obtain ⟨comparable1, cache1, hcall1, hcache1, hatom1, hboxed1⟩ :=
      eqComparableTypeP_spec typep depth up h1 hcache
    have hleft : comparable1 = true → DerivedType.type type1 = .type (.atom .atom) ∨
        type2 = .type (.atom .atom) ∨ (∀ x, type1.Has up .standard x → boxed x = false) ∨
          ∀ y, type2.Has up y → boxed y = false := by
      intro h
      rcases hboxed1 h with rfl | h
      · exact .inl rfl
      · exact .inr (.inr (.inl h))
    cases type2 with
    | unknown =>
      refine ⟨comparable1, cache1, hcall1, ?_, hleft⟩
      rintro (h | h)
      · exact hatom1 (DerivedType.type.inj h)
      · cases h
    | type type2 =>
      rw [eqComparableTypesP, hcall1]
      dsimp only [Option.bind_eq_bind, Option.bind_some]
      by_cases hcomparable : comparable1 = true
      · rw [if_pos hcomparable]
        exact ⟨true, cache1, rfl, fun _ => rfl, fun _ => hleft hcomparable⟩
      · rw [if_neg hcomparable]
        obtain ⟨comparable2, cache2, hcall2, -, hatom2, hboxed2⟩ :=
          eqComparableTypeP_spec typep depth up h2 hcache1
        refine ⟨comparable2, cache2, hcall2, ?_, fun h => ?_⟩
        · rintro (h | h)
          · exact absurd (hatom1 (DerivedType.type.inj h)) hcomparable
          · exact hatom2 (DerivedType.type.inj h)
        · rcases hboxed2 h with rfl | h
          · exact .inr (.inl rfl)
          · exact .inr (.inr (.inr h))

theorem p2Eql_iff (up : Upgrading) (types : List Specifier) {type1 type2 : DerivedType}
    (h1 : type1.Canonical) (h2 : type2.Canonical) :
    (∀ cache, p2Eql (percentSubtypep typep (depth + 2)) type1 type2 (canonicalTypes types) =
        some (.eq, cache) →
      ∀ x y, type1.Has up x → type2.Has up y → eql x y = Types.eq x y) ↔
    (type1 = .type (.atom .atom) → ∀ y, type2.Has up y → boxed y = false) ∧
      (type2 = .type (.atom .atom) → ∀ x, type1.Has up x → boxed x = false) := by
  obtain ⟨comparable, cache, hcall, hatom, hboxed⟩ :=
    eqComparableTypesP_spec typep depth up h1 h2 (exact_canonicalTypes types)
  have hp2 : p2Eql (percentSubtypep typep (depth + 2)) type1 type2 (canonicalTypes types) =
      some (if comparable then .eq else .eql, cache) := by
    rw [p2Eql, hcall]
    rfl
  constructor
  · intro h
    refine ⟨?_, ?_⟩
    · rintro rfl y hy
      rw [hp2, hatom (.inl rfl)] at h
      by_contra hboxedy
      rw [Bool.not_eq_false] at hboxedy
      obtain ⟨-, -, heql, heq, hcons⟩ := copy_spec hboxedy
      rw [h cache rfl (copy y) y hcons hy, heq] at heql
      cases heql
    · rintro rfl x hx
      rw [hp2, hatom (.inr rfl)] at h
      by_contra hboxedx
      rw [Bool.not_eq_false] at hboxedx
      obtain ⟨heql, heq, -, -, hcons⟩ := copy_spec hboxedx
      rw [h cache rfl x (copy x) hx hcons, heq] at heql
      cases heql
  · rintro ⟨hatom1, hatom2⟩ cache' h x y hx hy
    rw [hp2] at h
    have hcomparable : comparable = true := by
      by_contra hne
      rw [if_neg hne] at h
      cases h
    refine eql_eq_of_not_boxed ?_
    rcases hboxed hcomparable with h | h | h | h
    · exact .inr (hatom1 h y hy)
    · exact .inl (hatom2 h x hx)
    · exact .inl (h x hx)
    · exact .inr (h y hy)

/-- What a call of `delete` has to leave: all elements that are not `EQL` to the item. -/
def DeletesEql (up : Upgrading) (operator : Predicate) (type : DerivedType) : Prop :=
  ∀ item, type.Has up item → ∀ (mem : Cells Object) (list : Option ℕ) (addresses : List ℕ),
    Chain mem list addresses → addresses.Nodup →
      Leaves (listDelete (operator.holds · item) (addresses.length + 1) list mem)
        ((mem.elements addresses).filter fun x => !eql x item)

theorem deletesEql_eql (up : Upgrading) (type : DerivedType) : DeletesEql up .eql type :=
  fun item _ _ _ _ hchain hnodup => listDelete_spec (Types.eql · item) hchain hnodup

theorem deletesEql_eq_iff (up : Upgrading) (type : DerivedType) :
    DeletesEql up .eq type ↔ ∀ item, type.Has up item → boxed item = false := by
  constructor
  · intro h item hitem
    by_contra hboxed
    rw [Bool.not_eq_false] at hboxed
    obtain ⟨-, -, heql, heq, -⟩ := copy_spec hboxed
    -- the list of another number that is `EQL` to the item
    have hchain : Chain (fun _ => (⟨copy item, none⟩ : Cell Object)) (some 0) [0] :=
      ⟨rfl, trivial⟩
    have hnodup : [0].Nodup := List.nodup_singleton 0
    have hwrong := listDelete_spec (Types.eq · item) hchain hnodup
    have hright := h item hitem _ _ _ hchain hnodup
    obtain ⟨result, mem, addresses, hcall, hresult, helements⟩ := hwrong
    obtain ⟨result', mem', addresses', hcall', hresult', helements'⟩ := hright
    obtain ⟨rfl, rfl⟩ := Prod.mk.inj (Option.some.inj (hcall.symm.trans hcall'))
    rw [chain_unique hresult' hresult, helements] at helements'
    simp [Cells.elements, heq, heql] at helements'
  · intro h item hitem mem list addresses hchain hnodup
    have heq : ∀ x, eql x item = Types.eq x item :=
      fun x => eql_eq_of_not_boxed (.inr (h item hitem))
    simp only [heq]
    exact listDelete_spec (Types.eq · item) hchain hnodup

theorem operator_of_p2Delete {type listType : DerivedType} {operator : Predicate}
    {cache cache' : Cache} (hcache : ExactCache cache)
    (h : p2Delete (percentSubtypep typep (depth + 2)) type listType .none cache =
      some (some operator, cache')) :
    ∃ cache1, ExactCache cache1 ∧
      p2DeleteOperator (percentSubtypep typep (depth + 2)) type cache1 =
        some (operator, cache') := by
  cases listType with
  | unknown => cases h
  | type listType =>
    rw [p2Delete] at h
    cases hlist : percentSubtypep typep (depth + 2) listType (.atom .list) cache with
    | none =>
      rw [hlist] at h
      cases h
    | some reply =>
      have hexact := exact_percentSubtypep _ _ _ _ _ _ hcache hlist
      rw [hlist] at h
      by_cases hvalue : reply.1.value = true
      · have h := (if_pos hvalue).symm.trans h
        cases hop : p2DeleteOperator (percentSubtypep typep (depth + 2)) type reply.2 with
        | none =>
          rw [hop] at h
          cases h
        | some outcome =>
          rw [hop] at h
          cases h
          exact ⟨reply.2, hexact, hop⟩
      · have h := (if_neg hvalue).symm.trans h
        cases h

theorem p2Delete_iff (up : Upgrading) (types : List Specifier) {type : DerivedType}
    (h : type.Canonical) :
    (∀ listType operator cache, p2Delete (percentSubtypep typep (depth + 2)) type listType .none
        (canonicalTypes types) = some (some operator, cache) → DeletesEql up operator type) ↔
    (∀ specifier, type = .type specifier → specifier.throughout Specifier.numeric = false →
      ∀ item, type.Has up item → boxed item = false) := by
  have hexact := exact_canonicalTypes types
  constructor
  · rintro hdeletes specifier rfl hnumeric
    rw [← deletesEql_eq_iff]
    obtain ⟨cache, hoperator⟩ := p2DeleteOperator_spec typep depth h hexact
    rw [if_pos (.inr hnumeric)] at hoperator
    refine hdeletes (.type (.atom .list)) .eq cache ?_
    have hlist : percentSubtypep typep (depth + 2) (.atom .list) (.atom .list)
        (canonicalTypes types) = some (yes, canonicalTypes types) := rfl
    rw [p2Delete, hlist]
    dsimp only [Option.bind_eq_bind, Option.bind_some]
    rw [if_pos (show yes.value = true from rfl), hoperator]
    rfl
  · intro hboxed listType operator cache hcall
    obtain ⟨cache1, hcache1, hoperator⟩ := operator_of_p2Delete typep depth hexact hcall
    cases type with
    | unknown =>
      cases hoperator
      exact deletesEql_eql up _
    | type type =>
      obtain ⟨cache2, hspec⟩ := p2DeleteOperator_spec typep depth h hcache1
      rw [hspec] at hoperator
      split_ifs at hoperator with heq
      · cases hoperator
        rw [deletesEql_eq_iff]
        rcases heq with hfixnum | hnumeric
        · exact fun item hitem => not_boxed_fixnumTypeP hfixnum hitem
        · exact hboxed type rfl hnumeric
      · cases hoperator
        exact deletesEql_eql up _

end

/-- **Exactly where `EQ` replaces `EQL` rightly**, for all canonical types and after any calls. The
comparison of two objects: where a type is `ATOM`, the other one is without boxed numbers. `delete`:
the type of the item is unknown, or a type of numbers, or without boxed numbers. -/
theorem eqComparable_iff (up : Upgrading) (typep : Object → Specifier → Bool) (depth : ℕ)
    (types : List Specifier) (type1 type2 : DerivedType) (h1 : type1.Canonical)
    (h2 : type2.Canonical) :
    ((∀ cache, p2Eql (percentSubtypep typep (depth + 2)) type1 type2 (canonicalTypes types) =
          some (.eq, cache) →
        ∀ x y, type1.Has up x → type2.Has up y → eql x y = Types.eq x y) ↔
      (type1 = .type (.atom .atom) → ∀ y, type2.Has up y → boxed y = false) ∧
        (type2 = .type (.atom .atom) → ∀ x, type1.Has up x → boxed x = false)) ∧
    ((∀ listType operator cache, p2Delete (percentSubtypep typep (depth + 2)) type1 listType .none
          (canonicalTypes types) = some (some operator, cache) → DeletesEql up operator type1) ↔
      (∀ specifier, type1 = .type specifier → specifier.throughout Specifier.numeric = false →
        ∀ item, type1.Has up item → boxed item = false)) :=
  ⟨p2Eql_iff typep depth up types h1 h2, p2Delete_iff typep depth up types h1⟩

/-- A variable that is no list, and an integer. -/
theorem eqComparable_iff_atom :
    ((∀ cache, p2Eql (percentSubtypep (fun _ _ => false) 2) (.type (.atom .atom))
          (.type (integerType .star .star)) (canonicalTypes []) = some (.eq, cache) →
        ∀ x y, (DerivedType.type (.atom .atom)).Has .smallest x →
          (DerivedType.type (integerType .star .star)).Has .smallest y →
            eql x y = Types.eq x y) ↔
      (DerivedType.type (.atom .atom) = .type (.atom .atom) →
        ∀ y, (DerivedType.type (integerType .star .star)).Has .smallest y → boxed y = false) ∧
        (DerivedType.type (integerType .star .star) = .type (.atom .atom) →
          ∀ x, (DerivedType.type (.atom .atom)).Has .smallest x → boxed x = false)) ∧
    ((∀ listType operator cache, p2Delete (percentSubtypep (fun _ _ => false) 2)
          (.type (.atom .atom)) listType .none (canonicalTypes []) = some (some operator, cache) →
        DeletesEql .smallest operator (.type (.atom .atom))) ↔
      (∀ specifier, DerivedType.type (.atom .atom) = .type specifier →
        specifier.throughout Specifier.numeric = false →
          ∀ item, (DerivedType.type (.atom .atom)).Has .smallest item → boxed item = false)) :=
  eqComparable_iff .smallest (fun _ _ => false) 0 [] (.type (.atom .atom))
    (.type (integerType .star .star)) ⟨trivial, rfl, nofun⟩ ⟨trivial, rfl, nofun⟩

/-- `(eql x y)` with `x` of type `ATOM` and `y` an integer is compiled as `(eq x y)`, which is false
for two boxes of the same bignum. -/
theorem not_eqComparable :
    ¬ ∀ (up : Upgrading) (typep : Object → Specifier → Bool) (depth : ℕ)
      (types : List Specifier) (type1 type2 : DerivedType), type1.Canonical → type2.Canonical →
      (∀ cache, p2Eql (percentSubtypep typep (depth + 2)) type1 type2 (canonicalTypes types) =
          some (.eq, cache) →
        ∀ x y, type1.Has up x → type2.Has up y → eql x y = Types.eq x y) ∧
      ∀ listType operator cache, p2Delete (percentSubtypep typep (depth + 2)) type1 listType .none
        (canonicalTypes types) = some (some operator, cache) → DeletesEql up operator type1 := by
  intro h
  have heql := (h .smallest (fun _ _ => false) 0 [] (.type (.atom .atom))
    (.type (integerType .star .star)) ⟨trivial, rfl, nofun⟩ ⟨trivial, rfl, nofun⟩).1 [] rfl
    (.integer 0 (2 ^ 62)) (.integer 1 (2 ^ 62)) (by rintro ⟨_, _, _, h⟩; cases h)
    ⟨1, 2 ^ 62, rfl, trivial, trivial⟩
  exact absurd heql (by decide)

end Xcl.P2
