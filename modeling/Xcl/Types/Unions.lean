import Xcl.Types.Subtypep
import Xcl.Types.Table

/-!
# `subtypep` of canonical types

* `Part`, `Canonical`: canonical names, numeric types and array types, and their unions.
-/

namespace Xcl.Types

variable {typep : Object → Specifier → Bool}

/-! ## The table -/

/-- The table that a call returns is exact. -/
def Keeping (subtypep : Cache → Reply) : Prop :=
  ∀ cache answer cache', ExactCache cache → subtypep cache = some (answer, cache') →
    ExactCache cache'

theorem keeping_return (answer : Answer) : Keeping fun cache => some (answer, cache) := by
  intro cache _ _ hcache h
  cases h
  exact hcache

theorem keeping_anyYes {subtypep : Specifier → Cache → Reply}
    (hsubtypep : ∀ type, Keeping (subtypep type)) : ∀ types, Keeping (anyYes subtypep types)
  | .nil => keeping_return unknown
  | .cons type types => by
    intro cache answer cache' hcache h
    rw [anyYes] at h
    cases hcall : subtypep type cache with
    | none =>
      rw [hcall] at h
      cases h
    | some reply =>
      have hreply := hsubtypep type cache _ _ hcache hcall
      rw [hcall] at h
      by_cases hvalue : reply.1.value = true
      · cases (if_pos hvalue).symm.trans h
        exact hreply
      · exact keeping_anyYes hsubtypep types _ _ _ hreply ((if_neg hvalue).symm.trans h)

theorem keeping_allYes {subtypep : Specifier → Cache → Reply}
    (hsubtypep : ∀ type, Keeping (subtypep type)) : ∀ types, Keeping (allYes subtypep types)
  | .nil => keeping_return yes
  | .cons type types => by
    intro cache answer cache' hcache h
    rw [allYes] at h
    cases hcall : subtypep type cache with
    | none =>
      rw [hcall] at h
      cases h
    | some reply =>
      have hreply := hsubtypep type cache _ _ hcache hcall
      rw [hcall] at h
      by_cases hvalue : reply.1.value = true
      · exact keeping_allYes hsubtypep types _ _ _ hreply ((if_pos hvalue).symm.trans h)
      · cases (if_neg hvalue).symm.trans h
        exact hreply

theorem exact_canonicalizeType {type : Specifier} {cache : Cache} (hcache : ExactCache cache) :
    ExactCache (canonicalizeType type cache).cache :=
  (exactOutcome_lookUp hcache (exact_percent type cache hcache)).cache

theorem keeping_subtypepArray (type1 type2 : Specifier) :
    Keeping fun cache => some (subtypepArray type1 type2 cache) := by
  intro cache answer cache' hcache h
  have hcache' : cache' = (subtypepArray type1 type2 cache).2 := by
    rw [Option.some.inj h]
  rw [hcache']
  unfold subtypepArray
  split
  · exact hcache
  · exact hcache
  · exact hcache
  · unfold subtypepArray2
    split_ifs
    · exact hcache
    · exact hcache
    · exact hcache
    · exact exact_canonicalizeType (exact_canonicalizeType hcache)
  · exact hcache

theorem keeping_cons {subtypep : Specifier → Specifier → Cache → Reply}
    (hsubtypep : ∀ type1 type2, Keeping (subtypep type1 type2)) (car1 cdr1 car2 cdr2 : Specifier) :
    Keeping (fun cache => do
      let (answer, cache) ← subtypep car1 car2 cache
      if answer.value then
        let (answer, cache) ← subtypep cdr1 cdr2 cache
        some (if answer.value then yes else no, cache)
      else some (no, cache)) := by
  intro cache answer cache' hcache h
  cases hcar : subtypep car1 car2 cache with
  | none =>
    simp only [hcar] at h
    cases h
  | some reply =>
    have hreply := hsubtypep car1 car2 cache _ _ hcache hcar
    simp only [hcar] at h
    by_cases hvalue : reply.1.value = true
    · have h := (if_pos hvalue).symm.trans h
      cases hcdr : subtypep cdr1 cdr2 reply.2 with
      | none =>
        rw [hcdr] at h
        cases h
      | some reply' =>
        rw [hcdr] at h
        cases h
        exact hsubtypep cdr1 cdr2 _ _ _ hreply hcdr
    · cases (if_neg hvalue).symm.trans h
      exact hreply

theorem keeping_subtypepCanonical {subtypep : Specifier → Specifier → Cache → Reply}
    (hsubtypep : ∀ type1 type2, Keeping (subtypep type1 type2)) (type1 type2 : Specifier) :
    Keeping (subtypepCanonical typep subtypep type1 type2) := by
  intro cache answer cache' hcache h
  unfold subtypepCanonical at h
  split at h
  · cases h
    exact hcache
  · split_ifs at h <;> cases h <;> exact hcache
  · cases h
    exact hcache
  · by_cases hequal : type1.equal type2 = true
    · cases (if_pos hequal).symm.trans h
      exact hcache
    · have h := (if_neg hequal).symm.trans h
      split at h
      · exact keeping_anyYes (fun type => hsubtypep type _) _ _ _ _ hcache h
      · exact keeping_allYes (fun type => hsubtypep _ type) _ _ _ _ hcache h
      · exact keeping_allYes (fun type => hsubtypep type _) _ _ _ _ hcache h
      · exact keeping_anyYes (fun type => hsubtypep _ type) _ _ _ _ hcache h
      · exact keeping_subtypepArray _ _ _ _ _ hcache h
      · exact keeping_subtypepArray _ _ _ _ _ hcache h
      · cases h
        exact hcache
      · cases h
        exact hcache
      · exact keeping_cons hsubtypep _ _ _ _ _ _ _ hcache h
      · cases h
        exact hcache
      · cases h
        exact hcache

theorem exact_percentSubtypep : ∀ (depth : ℕ) (type1 type2 : Specifier),
    Keeping (percentSubtypep typep depth type1 type2)
  | 0, _, _ => fun _ _ _ _ h => by cases h
  | depth + 1, type1, type2 => by
    intro cache answer cache' hcache h
    rw [percentSubtypep] at h
    split at h
    · cases h
      exact hcache
    · exact keeping_subtypepCanonical (exact_percentSubtypep depth) _ _ _ _ _
        (exact_canonicalizeType (exact_canonicalizeType hcache)) h

/-! ## Canonical types -/

/-- A canonical name, numeric type or array type. -/
def Part (type : Specifier) : Prop :=
  Simple type ∧ canonical type = type ∧ type ≠ .atom .star

/-- A canonical type of one part, or a union of some. -/
def Canonical : Specifier → Prop
  | .or types => Members Part types ∧ isList types = false
  | type => Part type

/-- The names of the types of numbers. -/
def Name.numeric : Name → Bool
  | .nil | .number | .real | .rational | .integer | .bignum | .ratio | .float | .singleFloat
  | .doubleFloat | .complex => true
  | _ => false

/-- The canonical types of numbers. -/
def Specifier.numeric : Specifier → Bool
  | .atom name => name.numeric
  | .integer _ | .interval _ _ => true
  | _ => false

/-- The canonical types of arrays. -/
def Specifier.arrays : Specifier → Bool
  | .atom name => name = .nil
  | .array2 _ _ _ => true
  | _ => false

/-- The canonical types that are found to be subtypes of `ARRAY`. -/
def Specifier.underArray : Specifier → Bool
  | .atom name => name = .nil || name = .nilVector
  | .array2 _ _ _ => true
  | _ => false

/-- All members have a property. -/
def Specifiers.all (p : Specifier → Bool) : Specifiers → Bool
  | .nil => true
  | .cons type types => p type && all p types

/-- A property of a canonical type, or of all members of a union. -/
def Specifier.throughout (p : Specifier → Bool) : Specifier → Bool
  | .or types => types.all p
  | type => p type

/-- The answer for a type, after any calls that have left an exact table. -/
def Decides (subtypep : Cache → Reply) (p : Bool → Prop) : Prop :=
  ∀ cache, ExactCache cache →
    ∃ answer cache', subtypep cache = some (answer, cache') ∧ ExactCache cache' ∧ p answer.value

theorem decides_canonical {depth : ℕ} {type1 type2 : Specifier} {p : Bool → Prop}
    (honce : subtypepAtOnce type1 type2 = none) (h1 : Known type1) (h2 : Known type2)
    (h : Decides (subtypepCanonical typep (percentSubtypep typep depth) (canonical type1)
      (canonical type2)) p) : Decides (percentSubtypep typep (depth + 1) type1 type2) p := by
  intro cache hcache
  obtain ⟨hcanonical1, hcache1⟩ := canonicalizeType_known h1 hcache
  obtain ⟨hcanonical2, hcache2⟩ := canonicalizeType_known h2 hcache1
  obtain ⟨answer, cache', hcall, hcache', hp⟩ := h _ hcache2
  refine ⟨answer, cache', ?_, hcache', hp⟩
  rw [percentSubtypep, honce]
  dsimp only
  rw [hcanonical1, hcanonical2, hcall]

theorem decides_return {answer : Answer} {p : Bool → Prop} (h : p answer.value) :
    Decides (fun cache => some (answer, cache)) p :=
  fun cache hcache => ⟨answer, cache, rfl, hcache, h⟩

theorem subtypepArray_number (name : ArrayName) (elementType : Specifier)
    (dimensions : Dimensions) (cache : Cache) :
    subtypepArray (.array2 name elementType dimensions) (.atom .number) cache = (no, cache) := by
  unfold subtypepArray
  split
  any_goals rfl
  all_goals
    rename_i hname
    cases hname

theorem percentSubtypep_number_part {type : Specifier} (h : Part type) (depth : ℕ) :
    Decides (percentSubtypep typep (depth + 1) type (.atom .number)) (· = type.numeric) := by
  obtain ⟨hsimple, hcanonical, hstar⟩ := h
  cases type with
  | atom name =>
    cases name
    case star => exact absurd rfl hstar
    all_goals first
      | exact fun cache hcache => ⟨_, cache, rfl, hcache, rfl⟩
      | cases hcanonical
  | integer args =>
    refine decides_canonical rfl hsimple.known trivial ?_
    rw [hcanonical]
    intro cache hcache
    refine ⟨_, cache, rfl, hcache, ?_⟩
    exact subIntervalP_nil (args.map Bound.toRat)
  | interval name args =>
    refine decides_canonical rfl hsimple.known trivial ?_
    rw [hcanonical]
    intro cache hcache
    cases name <;> exact ⟨_, cache, rfl, hcache, subIntervalP_nil args⟩
  | array2 name elementType dimensions =>
    refine decides_canonical rfl hsimple.known trivial ?_
    rw [hcanonical]
    intro cache hcache
    refine ⟨no, cache, ?_, hcache, rfl⟩
    exact congrArg some (subtypepArray_number name elementType dimensions cache)
  | mod => cases hcanonical
  | signedByte width =>
    cases width with
    | none => cases hcanonical
    | some width => cases width <;> cases hcanonical
  | unsignedByte width =>
    cases width with
    | none => cases hcanonical
    | some width => cases width <;> cases hcanonical
  | _ => exact hsimple.elim

/-- The type `(ARRAY * *)`. -/
def anyArray : Specifier := .array2 .array (.atom .star) .star

theorem known_anyArray : Known anyArray := ⟨trivial, rfl⟩

theorem subtypepArray_anyArray (name : ArrayName) (elementType : Specifier)
    (dimensions : Dimensions) (cache : Cache) :
    subtypepArray (.array2 name elementType dimensions) anyArray cache = (yes, cache) := by
  have hstar : subtypepArray2 elementType dimensions (.atom .star) .star cache = (yes, cache) :=
    if_pos ⟨rfl, rfl⟩
  cases name with
  | array =>
    cases dimensions with
    | list sizes =>
      match sizes with
      | [] => exact hstar
      | [_] => exact hstar
      | _ :: _ :: _ => exact hstar
    | _ => exact hstar
  | simpleArray =>
    cases dimensions with
    | list sizes =>
      match sizes with
      | [] => exact hstar
      | [_] => exact hstar
      | _ :: _ :: _ => exact hstar
    | _ => exact hstar

theorem subtypepCanonical_anyArray (name : ArrayName) (elementType : Specifier)
    (dimensions : Dimensions) (subtypep : Specifier → Specifier → Cache → Reply) (cache : Cache) :
    subtypepCanonical typep subtypep (.array2 name elementType dimensions) anyArray cache =
      some (yes, cache) := by
  have harray := subtypepArray_anyArray name elementType dimensions cache
  by_cases hequal : (Specifier.array2 name elementType dimensions).equal anyArray = true
  · exact if_pos hequal
  · exact (if_neg hequal).trans (congrArg some harray)

/-- The types of which a part is compared with `(ARRAY * *)`. -/
theorem decides_anyArray {type target : Specifier} {depth : ℕ} (h : Part type)
    (honce : subtypepAtOnce type target = none) (htarget : Known target)
    (hcanonical : canonical target = anyArray) :
    Decides (percentSubtypep typep (depth + 1) type target) (· = type.arrays) := by
  obtain ⟨hsimple, htype, -⟩ := h
  refine decides_canonical honce hsimple.known htarget ?_
  rw [htype, hcanonical]
  intro cache hcache
  cases type with
  | atom name =>
    cases name <;> exact ⟨_, cache, rfl, hcache, rfl⟩
  | array2 name elementType dimensions =>
    exact ⟨yes, cache, subtypepCanonical_anyArray name elementType dimensions _ cache, hcache, rfl⟩
  | integer args => exact ⟨_, cache, rfl, hcache, rfl⟩
  | interval name args => exact ⟨_, cache, rfl, hcache, rfl⟩
  | mod | signedByte | unsignedByte => exact ⟨_, cache, rfl, hcache, rfl⟩
  | _ => exact hsimple.elim

theorem percentSubtypep_anyArray_part {type : Specifier} (h : Part type) (depth : ℕ) :
    Decides (percentSubtypep typep (depth + 1) type anyArray) (· = type.arrays) := by
  cases type with
  | atom name =>
    by_cases hname : name = .nil
    · rw [hname]
      exact fun cache hcache => ⟨_, cache, rfl, hcache, rfl⟩
    · refine decides_anyArray h ?_ known_anyArray rfl
      cases name <;> first | rfl | exact absurd rfl hname
  | _ => exact decides_anyArray h rfl known_anyArray rfl

theorem percentSubtypep_array_part {type : Specifier} (h : Part type) (depth : ℕ) :
    Decides (percentSubtypep typep (depth + 1) type (.atom .array)) (· = type.underArray) := by
  cases type with
  | atom name =>
    obtain ⟨-, hcanonical, hstar⟩ := h
    cases name
    case star => exact absurd rfl hstar
    all_goals first
      | exact fun cache hcache => ⟨_, cache, rfl, hcache, rfl⟩
      | cases hcanonical
  | integer | interval | array2 => exact decides_anyArray h rfl trivial rfl
  | _ => exact decides_anyArray h rfl trivial rfl

/-! ## Unions -/

theorem decides_allYes {subtypep : Specifier → Cache → Reply} {p : Specifier → Bool} :
    ∀ {types : Specifiers}, Members (fun type => Decides (subtypep type) (· = p type)) types →
      Decides (allYes subtypep types) (· = types.all p)
  | .nil, _ => decides_return rfl
  | .cons type types, h => by
    intro cache hcache
    obtain ⟨answer, cache1, hcall, hcache1, hvalue⟩ := h.1 cache hcache
    rw [allYes, hcall]
    cases hanswer : answer.value with
    | true =>
      obtain ⟨answer', cache2, hcall', hcache2, hvalue'⟩ := decides_allYes h.2 cache1 hcache1
      refine ⟨answer', cache2, (if_pos hanswer).trans hcall', hcache2, ?_⟩
      rw [Specifiers.all, ← hvalue, hanswer]
      exact hvalue'
    | false =>
      refine ⟨answer, cache1, if_neg (Bool.eq_false_iff.mp hanswer), hcache1, ?_⟩
      rw [Specifiers.all, ← hvalue, hanswer]
      rfl

theorem members_mono {p q : Specifier → Prop} (h : ∀ type, p type → q type) :
    ∀ {types : Specifiers}, Members p types → Members q types
  | .nil, _ => trivial
  | .cons _ _, hmembers => ⟨h _ hmembers.1, members_mono h hmembers.2⟩

theorem canonicals_parts : ∀ {types : Specifiers}, Members Part types → canonicals types = types
  | .nil, _ => rfl
  | .cons _ _, h => congrArg₂ Specifiers.cons h.1.2.1 (canonicals_parts h.2)

theorem decides_or {types : Specifiers} {target target' : Specifier} {depth : ℕ}
    {p : Specifier → Bool} (h : Canonical (.or types))
    (honce : subtypepAtOnce (.or types) target = none) (htarget : Known target)
    (hcanonical : canonical target = target') (hcase : target' = .atom .number ∨ target' = anyArray)
    (hmembers : ∀ type, Part type →
      Decides (percentSubtypep typep (depth + 1) type target') (· = p type)) :
    Decides (percentSubtypep typep (depth + 2) (.or types) target) (· = types.all p) := by
  have hknown : Known (.or types) := members_mono (fun _ hpart => hpart.1) h.1
  have htypes : canonical (.or types) = .or types := by
    rw [canonical, h.2, canonicals_parts h.1]
    rfl
  refine decides_canonical honce hknown htarget ?_
  rw [htypes, hcanonical]
  have hall := decides_allYes (members_mono hmembers h.1)
  rcases hcase with rfl | rfl
  · exact hall
  · exact hall

theorem Decides.mono {subtypep : Cache → Reply} {p q : Bool → Prop} (h : Decides subtypep p)
    (hpq : ∀ value, p value → q value) : Decides subtypep q := by
  intro cache hcache
  obtain ⟨answer, cache', hcall, hcache', hp⟩ := h cache hcache
  exact ⟨answer, cache', hcall, hcache', hpq _ hp⟩

theorem all_mono {p q : Specifier → Bool} (h : ∀ type, p type = true → q type = true) :
    ∀ {types : Specifiers}, types.all p = true → types.all q = true
  | .nil, _ => rfl
  | .cons type types, hall => by
    rw [Specifiers.all, Bool.and_eq_true] at hall ⊢
    exact ⟨h type hall.1, all_mono h hall.2⟩

/-- **`(subtypep type 'NUMBER)`** for a canonical type. -/
theorem percentSubtypep_number {type : Specifier} (h : Canonical type) (depth : ℕ) :
    Decides (percentSubtypep typep (depth + 2) type (.atom .number))
      (· = type.throughout Specifier.numeric) := by
  cases type with
  | or types =>
    exact decides_or h rfl trivial rfl (.inl rfl) fun _ hpart =>
      percentSubtypep_number_part hpart depth
  | _ => exact percentSubtypep_number_part h (depth + 1)

/-- **`(subtypep type 'ARRAY)`** for a canonical type. -/
theorem percentSubtypep_array {type : Specifier} (h : Canonical type) (depth : ℕ) :
    Decides (percentSubtypep typep (depth + 2) type (.atom .array))
      (fun value => value = true → type.throughout Specifier.underArray = true) := by
  cases type with
  | or types =>
    have hor := @decides_or typep types (.atom .array) anyArray depth Specifier.arrays h rfl trivial
      rfl (.inr rfl) fun _ hpart => percentSubtypep_anyArray_part hpart depth
    refine hor.mono fun value hvalue htrue => all_mono (fun type htype => ?_)
      (hvalue.symm.trans htrue)
    cases type with
    | atom name => exact Bool.or_eq_true_iff.mpr (.inl htype)
    | array2 => rfl
    | _ => cases htype
  | _ =>
    exact (percentSubtypep_array_part h (depth + 1)).mono fun _ hvalue htrue =>
      hvalue.symm.trans htrue

end Xcl.Types
