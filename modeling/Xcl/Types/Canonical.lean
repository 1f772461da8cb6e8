import Xcl.Types.Meaning

/-!
# Canonical types keep the meaning

* `Good`: a canonical type means what a type specifier means in the wide reading;
* **`canonicalizeType_means_iff`**: a canonical type means what the type specifier means, if and
  only if the two readings of it agree.
-/

namespace Xcl.Types

open Numbers (InFixnumRange)

-- The equations of these functions are made once, before the lemmas that use them.
section
attribute [local simp] Cache.gethash Cache.puthash Name.Has Specifier.Plain Specifier.equal
  Specifier.isStar Specifiers.Any Specifiers.HasFirst Specifiers.HaveParts Specifiers.Plain
  Specifiers.equal Specifiers.ofList canonicalizeAtomicType canonicalizeSized inclusiveHigh
  inclusiveLow maxLow minHigh percentCanonicalizeType
end

variable {up : Upgrading} {reading : Reading} {x : Object}

/-! ## Types without members -/

/-- All exclusive bounds of an `INTEGER` type have been made inclusive. -/
def Specifier.Inclusive : Specifier → Prop
  | .integer args => ∀ n, Bound.excl n ∉ args
  | _ => True

section
attribute [local simp] Specifier.Inclusive
end

structure Good (up : Upgrading) (type canonicalType : Specifier) : Prop where
  plain : canonicalType.Plain
  inclusive : canonicalType.Inclusive
  star : canonicalType.isStar = type.isStar
  has : ∀ reading x, canonicalType.Has up reading x ↔ type.Has up .wide x

theorem isInteger_congr {p q : ℤ → Prop} (h : ∀ n, p n ↔ q n) : IsInteger p x ↔ IsInteger q x := by
  have heq : p = q := by
    funext n
    exact propext (h n)
  rw [heq]

theorem elements_star : Elements up reading (.atom .star) = fun _ => True := by
  funext type
  simp [Elements, Specifier.isStar]

theorem elements_t : Elements up reading (.atom .t) = fun type => type = .t := by
  funext type
  have h : Specifier.Has up reading (.atom .t) = Name.Has .t := rfl
  simp [Elements, Specifier.isStar, h, up.t]

theorem elements_nil : Elements up reading (.atom .nil) = fun type => type = .nil := by
  funext type
  have h : Specifier.Has up reading (.atom .nil) = Name.Has .nil := rfl
  simp [Elements, Specifier.isStar, h, up.nil]

theorem elements_character :
    Elements up reading (.atom .character) = fun type => type = .character := by
  funext type
  have h : Specifier.Has up reading (.atom .character) = Name.Has .character := rfl
  simp [Elements, Specifier.isStar, h, up.character]

theorem elements_baseChar :
    Elements up reading (.atom .baseChar) = fun type => type = .character := by
  funext type
  have h : Specifier.Has up reading (.atom .baseChar) = Name.Has .character := rfl
  simp [Elements, Specifier.isStar, h, up.character]

theorem elements_bit :
    Elements up reading (integerType (.incl 0) (.incl 1)) = fun type => type = .bit := by
  funext type
  have h : Specifier.Has up reading (integerType (.incl 0) (.incl 1)) = Name.Has .bit := rfl
  rw [Elements, h, up.bit]
  simp [Specifier.isStar, integerType]

theorem has_vectorType {name : ArrayName} {elementType : Specifier} {size : Dimension} :
    (vectorType name elementType size).Has up reading x ↔
      HasArray name (Elements up reading elementType) (.list [size]) x := Iff.rfl

theorem hasArray_or {name : ArrayName} {elements₁ elements₂ : ElementType → Prop}
    {dimensions : Dimensions} :
    HasArray name (fun type => elements₁ type ∨ elements₂ type) dimensions x ↔
      HasArray name elements₁ dimensions x ∨ HasArray name elements₂ dimensions x := by
  constructor
  · rintro ⟨array, rfl, hname, helements | helements, hdimensions⟩
    · exact .inl ⟨array, rfl, hname, helements, hdimensions⟩
    · exact .inr ⟨array, rfl, hname, helements, hdimensions⟩
  · rintro (⟨array, rfl, hname, h, hdimensions⟩ | ⟨array, rfl, hname, h, hdimensions⟩)
    · exact ⟨array, rfl, hname, .inl h, hdimensions⟩
    · exact ⟨array, rfl, hname, .inr h, hdimensions⟩

theorem has_stringType {name : ArrayName} {size : Dimension} :
    (stringType name size).Has up reading x ↔
      HasArray name (fun type => type = .character ∨ type = .nil) (.list [size]) x := by
  have h : (stringType name size).Has up reading x ↔
      HasArray name (Elements up reading (.atom .character)) (.list [size]) x ∨
        HasArray name (Elements up reading (.atom .baseChar)) (.list [size]) x ∨
          HasArray name (Elements up reading (.atom .nil)) (.list [size]) x ∨ False := Iff.rfl
  rw [h, elements_character, elements_baseChar, elements_nil, hasArray_or, or_false, ← or_assoc,
    or_self]

theorem has_consType : (Specifier.cons (.ofList [.atom .t, .atom .t])).Has up reading x ↔
    IsCons x := by
  constructor
  · rintro ⟨address, car, cdr, rfl, -⟩
    exact ⟨address, car, cdr, rfl⟩
  · rintro ⟨address, car, cdr, rfl⟩
    exact ⟨address, car, cdr, rfl, trivial, trivial⟩

theorem has_canonicalizeAtomicType (name : Name) :
    (canonicalizeAtomicType name).Has up reading x ↔ name.Has x := by
  cases name with
  | integer => exact isInteger_congr fun n => and_self_iff
  | signedByte => exact isInteger_congr fun n => and_self_iff
  | unsignedByte => exact isInteger_congr fun n => and_iff_left trivial
  | cons => exact has_consType
  | array =>
    change HasArray .array (Elements up reading (.atom .star)) .star x ↔ _
    rw [elements_star]
    rfl
  | simpleArray =>
    change HasArray .simpleArray (Elements up reading (.atom .star)) .star x ↔ _
    rw [elements_star]
    rfl
  | vector =>
    rw [canonicalizeAtomicType, has_vectorType, elements_star]
    rfl
  | simpleVector =>
    rw [canonicalizeAtomicType, has_vectorType, elements_t]
    rfl
  | bitVector =>
    rw [canonicalizeAtomicType, has_vectorType, elements_bit]
    rfl
  | simpleBitVector =>
    rw [canonicalizeAtomicType, has_vectorType, elements_bit]
    rfl
  | baseString =>
    rw [canonicalizeAtomicType, has_vectorType, elements_baseChar]
    rfl
  | simpleBaseString =>
    rw [canonicalizeAtomicType, has_vectorType, elements_baseChar]
    rfl
  | string => exact has_stringType
  | simpleString => exact has_stringType
  | _ => rfl

theorem good_atom (name : Name) : Good up (.atom name) (canonicalizeAtomicType name) where
  plain := by cases name <;> simp [canonicalizeAtomicType, integerType, vectorType, stringType,
    Specifiers.ofList, Specifier.Plain, Specifiers.Plain]
  inclusive := by cases name <;> simp [canonicalizeAtomicType, integerType, vectorType, stringType,
    Specifier.Inclusive]
  star := by cases name <;> rfl
  has _ _ := has_canonicalizeAtomicType name

theorem below_inclusiveLow (low : Bound ℤ) (n : ℤ) : (inclusiveLow low).Below n ↔ low.Below n := by
  cases low with
  | excl m => exact Int.add_one_le_iff
  | _ => rfl

theorem above_inclusiveHigh (high : Bound ℤ) (n : ℤ) :
    (inclusiveHigh high).Above n ↔ high.Above n := by
  cases high with
  | excl m => exact Int.le_sub_one_iff
  | _ => rfl

theorem inclusive_integerType {low high : Bound ℤ} :
    (integerType low high).Inclusive ↔ (∀ n, low ≠ .excl n) ∧ ∀ n, high ≠ .excl n := by
  simp only [integerType, Specifier.Inclusive, List.mem_cons, List.not_mem_nil, or_false, not_or,
    forall_and, eq_comm (b := low), eq_comm (b := high), ne_eq]

theorem good_integer (args : List (Bound ℤ)) :
    Good up (.integer args) (canonicalizeInteger args) := by
  cases args with
  | nil => exact ⟨trivial, trivial, rfl, fun _ _ => isInteger_congr fun _ => and_self_iff.symm⟩
  | cons low rest =>
    refine ⟨trivial, ?_, rfl, fun _ _ => isInteger_congr fun n => ?_⟩
    · refine inclusive_integerType.mpr ⟨fun n => ?_, fun n => ?_⟩
      · cases (bounds (low :: rest)).1 <;> simp [inclusiveLow]
      · cases (bounds (low :: rest)).2 <;> simp [inclusiveHigh]
    · exact and_congr (below_inclusiveLow _ n) (above_inclusiveHigh _ n)

theorem within_nil : Within ([] : List (Bound ℚ)) = fun _ => True := by
  funext q
  exact propext and_self_iff

theorem good_interval (name : IntervalName) (args : List (Bound ℚ)) :
    Good up (.interval name args) (canonicalizeInterval name args) := by
  cases args with
  | nil =>
    refine ⟨?_, ?_, ?_, fun _ _ => ?_⟩
    · cases name <;> trivial
    · cases name <;> trivial
    · cases name <;> rfl
    · cases name <;> simp only [Specifier.Has, within_nil] <;> rfl
  | cons low rest =>
    refine ⟨?_, ?_, ?_, fun _ _ => ?_⟩
    · cases name <;> trivial
    · cases name <;> trivial
    · cases name <;> rfl
    · cases name <;> rfl

theorem good_mod (n : ℤ) : Good up (.mod n) (integerType (.incl 0) (.incl (n - 1))) := by
  refine ⟨trivial, inclusive_integerType.mpr ?_, rfl, fun _ _ => isInteger_congr fun m => ?_⟩
  · simp
  · exact and_congr_right' Int.le_sub_one_iff

theorem good_signedByte (width : Option Width) :
    Good up (.signedByte width) (canonicalizeSignedByte width) := by
  match width with
  | none | some .star =>
    refine ⟨trivial, inclusive_integerType.mpr ?_, rfl, fun _ _ => isInteger_congr fun m => ?_⟩
    · simp
    · exact and_self_iff
  | some (.bits n) =>
    refine ⟨trivial, inclusive_integerType.mpr ?_, rfl, fun _ _ => isInteger_congr fun m => ?_⟩
    · simp
    · exact and_congr_right' Int.le_sub_one_iff

theorem good_unsignedByte (width : Option Width) :
    Good up (.unsignedByte width) (canonicalizeUnsignedByte width) := by
  match width with
  | none | some .star =>
    refine ⟨trivial, inclusive_integerType.mpr ?_, rfl, fun _ _ => isInteger_congr fun m => ?_⟩
    · simp
    · exact and_iff_left trivial
  | some (.bits n) =>
    refine ⟨trivial, inclusive_integerType.mpr ?_, rfl, fun _ _ => isInteger_congr fun m => ?_⟩
    · simp
    · exact and_congr_right' Int.le_sub_one_iff

theorem good_eql (object : Object) (h : (Specifier.eql object).Plain) :
    Good up (.eql object) (canonicalizeEqlType object) := by
  cases object with
  | integer address n =>
    refine ⟨trivial, inclusive_integerType.mpr (by simp), rfl, fun _ x => ⟨?_, fun heql => ?_⟩⟩
    · rintro ⟨address', m, rfl, hle, hge⟩
      exact decide_eq_true (le_antisymm hle hge)
    · cases x with
      | integer address' m =>
        obtain rfl : n = m := of_decide_eq_true heql
        exact ⟨address', n, rfl, le_refl n, le_refl n⟩
      | _ => cases of_decide_eq_true heql
  | _ => exact ⟨h, trivial, rfl, fun _ _ => Iff.rfl⟩

theorem haveParts_iff (args : Specifiers) (car cdr : Object) :
    args.HaveParts up reading car cdr ↔
      (consTypespecs args).1.Has up reading car ∧ (consTypespecs args).2.Has up reading cdr := by
  match args with
  | .nil => exact (and_self_iff (a := True)).symm
  | .cons _ .nil => rfl
  | .cons _ (.cons _ _) => rfl

theorem plain_consTypespecs {args : Specifiers} (h : args.Plain) :
    (consTypespecs args).1.Plain ∧ (consTypespecs args).2.Plain := by
  match args, h with
  | .nil, _ => exact ⟨trivial, trivial⟩
  | .cons _ .nil, h => exact ⟨h.1, trivial⟩
  | .cons _ (.cons _ _), h => exact ⟨h.1, h.2.1⟩

theorem has_starToT (type : Specifier) :
    (starToT type).Has up reading x ↔ type.Has up reading x := by
  unfold starToT
  split <;> rfl

theorem plain_starToT {type : Specifier} (h : type.Plain) : (starToT type).Plain := by
  unfold starToT
  split
  · trivial
  · exact h

theorem not_has_of_isNil {type : Specifier} (h : type.isNil = true) : ¬ type.Has up reading x := by
  unfold Specifier.isNil at h
  split at h
  · exact id
  · exact absurd h Bool.false_ne_true

theorem good_cons (args : Specifiers) (h : args.Plain) :
    Good up (.cons args) (canonicalizeCons args) := by
  have hplain := plain_consTypespecs h
  by_cases hnil : ((consTypespecs args).1.isNil || (consTypespecs args).2.isNil) = true
  · have hcanonical : canonicalizeCons args = .atom .nil := if_pos hnil
    rw [hcanonical]
    refine ⟨trivial, trivial, rfl, fun _ x => ⟨False.elim, ?_⟩⟩
    rintro ⟨address, car, cdr, rfl, hparts⟩
    have hparts' := (haveParts_iff args car cdr).mp hparts
    rcases Bool.or_eq_true_iff.mp hnil with hcar | hcdr
    · exact absurd hparts'.1 (not_has_of_isNil hcar)
    · exact absurd hparts'.2 (not_has_of_isNil hcdr)
  · have hcanonical : canonicalizeCons args =
        .cons (.ofList [starToT (consTypespecs args).1, starToT (consTypespecs args).2]) :=
      if_neg hnil
    rw [hcanonical]
    refine ⟨⟨plain_starToT hplain.1, plain_starToT hplain.2, trivial⟩, trivial, rfl,
      fun _ x => ?_⟩
    simp only [Specifier.Has, haveParts_iff args]
    simp only [Specifiers.ofList, Specifiers.HaveParts, Specifiers.HasFirst, has_starToT]

theorem good_sized (name : SizedName) (size : Option Dimension) :
    Good up (.sized name size) (canonicalizeSized name size) := by
  refine ⟨?_, ?_, ?_, fun _ _ => ?_⟩
  · cases name <;> cases size <;> simp [canonicalizeSized, integerType, vectorType, stringType,
      Specifiers.ofList, Specifier.Plain, Specifiers.Plain]
  · cases name <;> cases size <;> trivial
  · cases name <;> cases size <;> rfl
  · cases name with
    | simpleVector =>
      rw [canonicalizeSized, has_vectorType, elements_t]
      rfl
    | bitVector =>
      rw [canonicalizeSized, has_vectorType, elements_bit]
      rfl
    | simpleBitVector =>
      cases size with
      | none =>
        -- the dimension is missing in the canonical type
        change HasArray .simpleArray (Elements up _ (integerType (.incl 0) (.incl 1))) .star _ ↔ _
        rw [elements_bit]
        rfl
      | some size =>
        rw [canonicalizeSized, has_vectorType, elements_bit]
        rfl
    | string => exact has_stringType
    | simpleString => exact has_stringType
    | baseString =>
      rw [canonicalizeSized, has_vectorType, elements_baseChar]
      rfl
    | simpleBaseString =>
      rw [canonicalizeSized, has_vectorType, elements_baseChar]
      rfl

/-! ## Members -/

structure Same (up : Upgrading) (type changed : Specifier) : Prop where
  plain : changed.Plain
  star : changed.isStar = type.isStar
  has : ∀ x, changed.Has up .wide x ↔ type.Has up .wide x

theorem Good.same {type canonicalType : Specifier} (h : Good up type canonicalType) :
    Same up type canonicalType := ⟨h.plain, h.star, h.has .wide⟩

theorem Same.refl {type : Specifier} (h : type.Plain) : Same up type type :=
  ⟨h, rfl, fun _ => Iff.rfl⟩

theorem Good.of_same {type changed canonicalType : Specifier} (h : Good up changed canonicalType)
    (hsame : Same up type changed) : Good up type canonicalType :=
  ⟨h.plain, h.inclusive, h.star.trans hsame.star, fun reading x => (h.has reading x).trans
    (hsame.has x)⟩

/-- Two lists of type specifiers are related member by member. -/
def Pairwise (R : Specifier → Specifier → Prop) : Specifiers → Specifiers → Prop
  | .nil, .nil => True
  | .cons type types, .cons type' types' => R type type' ∧ Pairwise R types types'
  | _, _ => False

theorem pairwise_mono {R S : Specifier → Specifier → Prop} (hRS : ∀ t t', R t t' → S t t') :
    ∀ {types types' : Specifiers}, Pairwise R types types' → Pairwise S types types'
  | .nil, .nil, _ => trivial
  | .cons _ _, .cons _ _, h => ⟨hRS _ _ h.1, pairwise_mono hRS h.2⟩

theorem plain_of_pairwise : ∀ {types types' : Specifiers}, Pairwise (Same up) types types' →
    types'.Plain
  | .nil, .nil, _ => trivial
  | .cons _ _, .cons _ _, h => ⟨h.1.plain, plain_of_pairwise h.2⟩

theorem all_of_pairwise {reading : Reading} : ∀ {types types' : Specifiers},
    Pairwise (fun t t' => ∀ x, t'.Has up reading x ↔ t.Has up .wide x) types types' →
      (∀ x, types'.All up reading x ↔ types.All up .wide x) ∧
        ∀ x, types'.Any up reading x ↔ types.Any up .wide x
  | .nil, .nil, _ => ⟨fun _ => Iff.rfl, fun _ => Iff.rfl⟩
  | .cons _ _, .cons _ _, h =>
    ⟨fun x => and_congr (h.1 x) ((all_of_pairwise h.2).1 x),
      fun x => or_congr (h.1 x) ((all_of_pairwise h.2).2 x)⟩

theorem pairwise_has {types types' : Specifiers} (h : Pairwise (Good up) types types') :
    Pairwise (fun t t' => ∀ x, t'.Has up reading x ↔ t.Has up .wide x) types types' :=
  pairwise_mono (fun _ _ hgood => hgood.has reading) h

theorem good_and {types canonicalTypes : Specifiers}
    (h : Pairwise (Good up) types canonicalTypes) :
    Good up (.and types) (.and canonicalTypes) :=
  ⟨plain_of_pairwise (pairwise_mono (fun _ _ => Good.same) h), trivial, rfl,
    fun _ => (all_of_pairwise (pairwise_has h)).1⟩

theorem good_or {types canonicalTypes : Specifiers}
    (h : Pairwise (Good up) types canonicalTypes) :
    Good up (.or types) (.or canonicalTypes) :=
  ⟨plain_of_pairwise (pairwise_mono (fun _ _ => Good.same) h), trivial, rfl,
    fun _ => (all_of_pairwise (pairwise_has h)).2⟩

theorem same_and {types changed : Specifiers} (h : Pairwise (Same up) types changed) :
    Same up (.and types) (.and changed) :=
  ⟨plain_of_pairwise h, rfl, (all_of_pairwise (pairwise_mono (fun _ _ hsame => hsame.has) h)).1⟩

theorem same_or {types changed : Specifiers} (h : Pairwise (Same up) types changed) :
    Same up (.or types) (.or changed) :=
  ⟨plain_of_pairwise h, rfl, (all_of_pairwise (pairwise_mono (fun _ _ hsame => hsame.has) h)).2⟩

theorem good_list {types : Specifiers} (h : isList types = true) :
    Good up (.or types) (.atom .list) := by
  have hhas : ∀ x, types.Any up .wide x ↔ Name.Has .list x := by
    intro x
    unfold isList at h
    split at h
    · simp only [Specifiers.Any, Specifier.Has, Name.Has, or_false]
      exact or_comm
    · simp only [Specifiers.Any, Specifier.Has, Name.Has, or_false]
    · exact absurd h Bool.false_ne_true
  exact ⟨trivial, trivial, rfl, fun _ x => (hhas x).symm⟩

/-! ## Intersections -/

theorem below_maxLow {low1 low2 : Bound ℤ} (h1 : ∀ n, low1 ≠ .excl n) (h2 : ∀ n, low2 ≠ .excl n)
    (n : ℤ) : (maxLow low1 low2).Below n ↔ low1.Below n ∧ low2.Below n := by
  cases low1 with
  | excl m => exact absurd rfl (h1 m)
  | star => exact (and_iff_right trivial).symm
  | incl l1 =>
    cases low2 with
    | excl m => exact absurd rfl (h2 m)
    | star => exact (and_iff_left trivial).symm
    | incl l2 => exact max_le_iff

theorem above_minHigh {high1 high2 : Bound ℤ} (h1 : ∀ n, high1 ≠ .excl n)
    (h2 : ∀ n, high2 ≠ .excl n) (n : ℤ) :
    (minHigh high1 high2).Above n ↔ high1.Above n ∧ high2.Above n := by
  cases high1 with
  | excl m => exact absurd rfl (h1 m)
  | star => exact (and_iff_right trivial).symm
  | incl l1 =>
    cases high2 with
    | excl m => exact absurd rfl (h2 m)
    | star => exact (and_iff_left trivial).symm
    | incl l2 => exact le_min_iff

theorem not_above_of_gt {low high : Bound ℤ} (h : low.gt high = true) {n : ℤ} (hlow : low.Below n) :
    ¬ high.Above n := by
  unfold Bound.gt at h
  split at h
  · have hlt := of_decide_eq_true h
    exact fun hhigh => absurd (hlow.trans hhigh) (not_le_of_gt hlt)
  · exact absurd h Bool.false_ne_true

theorem isInteger_and {p q : ℤ → Prop} :
    IsInteger p x ∧ IsInteger q x ↔ IsInteger (fun n => p n ∧ q n) x := by
  constructor
  · rintro ⟨⟨address, n, rfl, hp⟩, _, _, heq, hq⟩
    cases heq
    exact ⟨address, n, rfl, hp, hq⟩
  · rintro ⟨address, n, rfl, hp, hq⟩
    exact ⟨⟨address, n, rfl, hp⟩, address, n, rfl, hq⟩

theorem null_iff_symbol_and_list : Name.Has .null x ↔ Name.Has .symbol x ∧ Name.Has .list x := by
  constructor
  · rintro rfl
    exact ⟨.inl rfl, .inl rfl⟩
  · rintro ⟨rfl | ⟨_, _, rfl⟩, hlist⟩
    · rfl
    · rcases hlist with h | ⟨_, _, _, h⟩ <;> cases h

theorem intersection_spec {type1 type2 type : Specifier} (h : intersection type1 type2 = some type)
    (h1 : type1.Inclusive) (h2 : type2.Inclusive) :
    type.Plain ∧ type.Inclusive ∧ type.isStar = false ∧
      ∀ reading x, type.Has up reading x ↔ type1.Has up reading x ∧ type2.Has up reading x := by
  unfold intersection at h
  split at h
  · cases h
    exact ⟨trivial, trivial, rfl, fun _ _ => null_iff_symbol_and_list⟩
  · cases h
    exact ⟨trivial, trivial, rfl, fun _ _ => null_iff_symbol_and_list.trans and_comm⟩
  · rename_i low1 high1 low2 high2
    have h1' := inclusive_integerType.mp h1
    have h2' := inclusive_integerType.mp h2
    have hempty : ∀ {low high : Bound ℤ}, low.gt high = true →
        (low = low2 ∧ high = high1 ∨ low = low1 ∧ high = high2) → ∀ reading x,
          (Specifier.integer [low1, high1]).Has up reading x ∧
            (Specifier.integer [low2, high2]).Has up reading x → False := by
      intro low high hgt hwhich reading x hx
      obtain ⟨_, n, -, hn1, hn2⟩ := isInteger_and.mp hx
      rcases hwhich with ⟨rfl, rfl⟩ | ⟨rfl, rfl⟩
      · exact not_above_of_gt hgt hn2.1 hn1.2
      · exact not_above_of_gt hgt hn1.1 hn2.2
    split_ifs at h with hgt hgt'
    · cases h
      exact ⟨trivial, trivial, rfl, fun reading x =>
        ⟨False.elim, hempty hgt (.inl ⟨rfl, rfl⟩) reading x⟩⟩
    · cases h
      exact ⟨trivial, trivial, rfl, fun reading x =>
        ⟨False.elim, hempty hgt' (.inr ⟨rfl, rfl⟩) reading x⟩⟩
    · cases h
      refine ⟨trivial, inclusive_integerType.mpr ⟨?_, ?_⟩, rfl, fun reading x => ?_⟩
      · cases low1 <;> cases low2 <;> simp_all [maxLow]
      · cases high1 <;> cases high2 <;> simp_all [minHigh]
      · refine Iff.trans (isInteger_congr fun n => ?_) isInteger_and.symm
        refine (and_congr (below_maxLow h1'.1 h2'.1 n) (above_minHigh h1'.2 h2'.2 n)).trans ?_
        exact and_and_and_comm
  · cases h

/-! ## The table -/

/-- The table holds good canonical types of plain type specifiers. -/
def Valid (up : Upgrading) (cache : Cache) : Prop :=
  ∀ entry ∈ cache, entry.1.Plain ∧ Good up entry.1 entry.2

/-- What a call of `%canonicalize-type` or `canonicalize-type` comes to. -/
structure Sound (up : Upgrading) (type : Specifier) (outcome : Outcome) : Prop where
  good : Good up type outcome.canonicalType
  same : Same up type outcome.type
  valid : Valid up outcome.cache

/-- What the calls for all members come to. -/
structure Sounds (up : Upgrading) (types : Specifiers) (outcomes : Outcomes) : Prop where
  good : Pairwise (Good up) types outcomes.canonicalTypes
  same : Pairwise (Same up) types outcomes.types
  valid : Valid up outcomes.cache

theorem same_of_equal {type1 type2 : Specifier} (h : type1.equal type2 = true)
    (hplain : type1.Plain) : Same up type2 type1 :=
  ⟨hplain, isStar_of_equal h, has_of_equal h hplain .wide⟩

theorem good_gethash {type canonicalType : Specifier} : ∀ {cache : Cache}, Valid up cache →
    cache.gethash type = some canonicalType → Good up type canonicalType
  | (key, value) :: cache, hvalid, h => by
    rw [Cache.gethash] at h
    split_ifs at h with hequal
    · cases h
      have hentry := hvalid (key, canonicalType) List.mem_cons_self
      exact hentry.2.of_same (same_of_equal hequal hentry.1)
    · exact good_gethash (fun entry hentry => hvalid entry (List.mem_cons_of_mem _ hentry)) h

theorem Same.symm {type changed : Specifier} (h : Same up type changed) (hplain : type.Plain) :
    Same up changed type := ⟨hplain, h.star.symm, fun x => (h.has x).symm⟩

theorem valid_puthash {type canonicalType : Specifier} (hplain : type.Plain)
    (hgood : Good up type canonicalType) : ∀ {cache : Cache}, Valid up cache →
      Valid up (cache.puthash type canonicalType)
  | [], _ => by
    intro entry hentry
    rw [List.mem_singleton.mp hentry]
    exact ⟨hplain, hgood⟩
  | (key, value) :: cache, hvalid => by
    have hkey := hvalid (key, value) List.mem_cons_self
    have hrest : Valid up cache := fun entry hentry =>
      hvalid entry (List.mem_cons_of_mem _ hentry)
    intro entry hentry
    rw [Cache.puthash] at hentry
    split_ifs at hentry with hequal
    · rcases List.mem_cons.mp hentry with rfl | hmem
      · have hsame : Same up key type := (same_of_equal hequal hkey.1).symm hplain
        exact ⟨hkey.1, hgood.of_same hsame⟩
      · exact hrest entry hmem
    · rcases List.mem_cons.mp hentry with rfl | hmem
      · exact hkey
      · exact valid_puthash hplain hgood hrest entry hmem

theorem Sound.remember {type : Specifier} {outcome : Outcome} (h : Sound up type outcome)
    (hplain : type.Plain) : Sound up type outcome.remember := by
  unfold Outcome.remember
  split
  · exact h
  · exact h
  · refine ⟨h.good, h.same, ?_⟩
    exact valid_puthash h.same.plain (h.good.of_same (h.same.symm hplain)) h.valid

/-- `canonicalize-type` of a type specifier that may have been changed before. -/
theorem sound_lookUp {type changed : Specifier} {percent : Cache → Outcome} {cache : Cache}
    (hplain : type.Plain) (hsame : Same up type changed) (hvalid : Valid up cache)
    (hpercent : Sound up type (percent cache)) : Sound up type (lookUp changed percent cache) := by
  unfold lookUp
  split
  · rename_i canonicalType hfound
    exact ⟨(good_gethash hvalid hfound).of_same hsame, hsame, hvalid⟩
  · exact hpercent.remember hplain

/-! ## The recursion -/

theorem good_intersection {types : Specifiers} {type1 type2 type : Specifier}
    (h : Pairwise (Good up) types (.cons type1 (.cons type2 .nil)))
    (hint : intersection type1 type2 = some type) : Good up (.and types) type := by
  match types, h with
  | .cons _ (.cons _ .nil), h =>
    obtain ⟨hplain, hinclusive, hstar, hhas⟩ :=
      @intersection_spec up _ _ _ hint h.1.inclusive h.2.1.inclusive
    refine ⟨hplain, hinclusive, hstar, fun reading x => (hhas reading x).trans ?_⟩
    exact and_congr (h.1.has reading x) ((h.2.1.has reading x).trans (and_iff_left trivial).symm)

theorem hasArray_of_good {name : ArrayName} {elementType canonicalType : Specifier}
    {dimensions : Dimensions} (h : Good up elementType canonicalType) (reading : Reading)
    (x : Object) : HasArray name (Elements up reading canonicalType) dimensions x ↔
      HasArray name (Elements up .wide elementType) dimensions x := by
  have hhas : canonicalType.Has up reading = elementType.Has up .wide := by
    funext x
    exact propext (h.has reading x)
  have helements : Elements up reading canonicalType = Elements up .wide elementType := by
    funext type
    rw [Elements, Elements, h.star, hhas]
  rw [helements]

theorem hasArray_star {name : ArrayName} {dimensions : Dimensions} (reading : Reading)
    (x : Object) : HasArray name (Elements up reading (.atom .star)) dimensions x ↔
      HasArray name (fun _ => True) dimensions x := by
  rw [elements_star]

mutual

theorem sound_percentCanonicalizeType : ∀ (type : Specifier) (cache : Cache), type.Plain →
    Valid up cache → Sound up type (percentCanonicalizeType type cache)
  | .and types, cache, hplain, hvalid => by
    have first := sounds_canonicalizeTypes types cache hplain hvalid
    rw [percentCanonicalizeType]
    dsimp only
    split
    · rename_i type1 type2 hfirst
      have hgood := first.good
      rw [hfirst] at hgood
      split
      · rename_i type hint
        exact ⟨good_intersection hgood hint, same_and first.same, first.valid⟩
      · have second := sounds_canonicalizeTypesAgain types _ _ hplain first.same first.valid
        exact ⟨good_and second.good, same_and second.same, second.valid⟩
    · exact ⟨good_and first.good, same_and first.same, first.valid⟩
  | .or types, cache, hplain, hvalid => by
    rw [percentCanonicalizeType]
    split_ifs with hlist
    · exact ⟨good_list hlist, Same.refl hplain, hvalid⟩
    · have h := sounds_percentCanonicalizeTypes types cache hplain hvalid
      exact ⟨good_or h.good, same_or h.same, h.valid⟩
  | .array1 name elementType, cache, hplain, hvalid => by
    have h := sound_percentCanonicalizeType elementType cache hplain hvalid
    rw [percentCanonicalizeType]
    exact ⟨⟨h.good.plain, trivial, rfl, hasArray_of_good h.good⟩,
      ⟨h.same.plain, rfl, fun _ => hasArray_congr h.same.star h.same.has⟩, h.valid⟩
  | .array2 name elementType dimensions, cache, hplain, hvalid => by
    have h := sound_percentCanonicalizeType elementType cache hplain hvalid
    rw [percentCanonicalizeType]
    exact ⟨⟨h.good.plain, trivial, rfl, hasArray_of_good h.good⟩,
      ⟨h.good.plain, rfl, hasArray_of_good h.good .wide⟩, h.valid⟩
  | .vector1 elementType, cache, hplain, hvalid => by
    have h := sound_percentCanonicalizeType elementType cache hplain hvalid
    rw [percentCanonicalizeType]
    exact ⟨⟨h.good.plain, trivial, rfl, hasArray_of_good h.good⟩,
      ⟨h.good.plain, rfl, hasArray_of_good h.good .wide⟩, h.valid⟩
  | .vector2 elementType size, cache, hplain, hvalid => by
    have h := sound_percentCanonicalizeType elementType cache hplain hvalid
    rw [percentCanonicalizeType]
    exact ⟨⟨h.good.plain, trivial, rfl, hasArray_of_good h.good⟩,
      ⟨h.good.plain, rfl, hasArray_of_good h.good .wide⟩, h.valid⟩
  | .atom name, _, hplain, hvalid => ⟨good_atom name, Same.refl hplain, hvalid⟩
  | .integer args, _, hplain, hvalid => ⟨good_integer args, Same.refl hplain, hvalid⟩
  | .interval name args, _, hplain, hvalid => ⟨good_interval name args, Same.refl hplain, hvalid⟩
  | .mod n, _, hplain, hvalid => ⟨good_mod n, Same.refl hplain, hvalid⟩
  | .signedByte width, _, hplain, hvalid => ⟨good_signedByte width, Same.refl hplain, hvalid⟩
  | .unsignedByte width, _, hplain, hvalid => ⟨good_unsignedByte width, Same.refl hplain, hvalid⟩
  | .eql object, _, hplain, hvalid => ⟨good_eql object hplain, Same.refl hplain, hvalid⟩
  | .cons args, _, hplain, hvalid => ⟨good_cons args hplain, Same.refl hplain, hvalid⟩
  | .array0 name, _, hplain, hvalid =>
    ⟨⟨trivial, trivial, rfl, hasArray_star⟩, Same.refl hplain, hvalid⟩
  | .vector0, _, hplain, hvalid =>
    ⟨⟨trivial, trivial, rfl, hasArray_star⟩, Same.refl hplain, hvalid⟩
  | .sized name size, _, hplain, hvalid => ⟨good_sized name size, Same.refl hplain, hvalid⟩

theorem sounds_percentCanonicalizeTypes : ∀ (types : Specifiers) (cache : Cache), types.Plain →
    Valid up cache → Sounds up types (percentCanonicalizeTypes types cache)
  | .nil, _, _, hvalid => ⟨trivial, trivial, hvalid⟩
  | .cons type types, cache, hplain, hvalid => by
    have h := sound_percentCanonicalizeType type cache hplain.1 hvalid
    have hs := sounds_percentCanonicalizeTypes types _ hplain.2 h.valid
    exact ⟨⟨h.good, hs.good⟩, ⟨h.same, hs.same⟩, hs.valid⟩

theorem sounds_canonicalizeTypes : ∀ (types : Specifiers) (cache : Cache), types.Plain →
    Valid up cache → Sounds up types (canonicalizeTypes types cache)
  | .nil, _, _, hvalid => ⟨trivial, trivial, hvalid⟩
  | .cons type types, cache, hplain, hvalid => by
    have h := sound_lookUp hplain.1 (Same.refl hplain.1) hvalid
      (sound_percentCanonicalizeType type cache hplain.1 hvalid)
    have hs := sounds_canonicalizeTypes types _ hplain.2 h.valid
    exact ⟨⟨h.good, hs.good⟩, ⟨h.same, hs.same⟩, hs.valid⟩

theorem sounds_canonicalizeTypesAgain : ∀ (types changed : Specifiers) (cache : Cache),
    types.Plain → Pairwise (Same up) types changed → Valid up cache →
      Sounds up types (canonicalizeTypesAgain types changed cache)
  | .nil, .nil, _, _, _, hvalid => ⟨trivial, trivial, hvalid⟩
  | .cons type types, .cons changed changedTypes, cache, hplain, hsame, hvalid => by
    have h := sound_lookUp hplain.1 hsame.1 hvalid
      (sound_percentCanonicalizeType type cache hplain.1 hvalid)
    have hs := sounds_canonicalizeTypesAgain types changedTypes _ hplain.2 hsame.2 h.valid
    exact ⟨⟨h.good, hs.good⟩, ⟨h.same, hs.same⟩, hs.valid⟩

end

/-! ## Runs -/

/-- The table after a run of calls of `canonicalize-type`, which starts with the empty table. -/
def canonicalTypes (types : List Specifier) : Cache :=
  types.foldl (fun cache type => (canonicalizeType type cache).cache) []

theorem sound_canonicalizeType {type : Specifier} {cache : Cache} (hplain : type.Plain)
    (hvalid : Valid up cache) : Sound up type (canonicalizeType type cache) :=
  sound_lookUp hplain (Same.refl hplain) hvalid
    (sound_percentCanonicalizeType type cache hplain hvalid)

theorem valid_canonicalTypes {types : List Specifier} (h : ∀ type ∈ types, type.Plain) :
    Valid up (canonicalTypes types) := by
  have hrun : ∀ (types : List Specifier) (cache : Cache), (∀ type ∈ types, type.Plain) →
      Valid up cache →
        Valid up (types.foldl (fun cache type => (canonicalizeType type cache).cache) cache) := by
    intro types
    induction types with
    | nil => exact fun _ _ hvalid => hvalid
    | cons type types ih =>
      intro cache hplain hvalid
      apply ih _ fun t ht => hplain t (List.mem_cons_of_mem type ht)
      exact (sound_canonicalizeType (hplain type List.mem_cons_self) hvalid).valid
  exact hrun types [] h fun _ hentry => absurd hentry List.not_mem_nil

theorem has_canonicalizeType {types : List Specifier} (htypes : ∀ type ∈ types, type.Plain)
    {type : Specifier} (h : type.Plain) (x : Object) :
    (canonicalizeType type (canonicalTypes types)).canonicalType.Has up .standard x ↔
      type.Has up .wide x :=
  (sound_canonicalizeType h (valid_canonicalTypes htypes)).good.has .standard x

/-- The list without arguments of a name that can have arguments. -/
def argumentless : Name → Option Specifier
  | .integer => some (.integer [])
  | .signedByte => some (.signedByte none)
  | .unsignedByte => some (.unsignedByte none)
  | .cons => some (.cons .nil)
  | .array => some (.array0 .array)
  | .simpleArray => some (.array0 .simpleArray)
  | .vector => some .vector0
  | .simpleVector => some (.sized .simpleVector none)
  | .bitVector => some (.sized .bitVector none)
  | .simpleBitVector => some (.sized .simpleBitVector none)
  | .string => some (.sized .string none)
  | .simpleString => some (.sized .simpleString none)
  | .baseString => some (.sized .baseString none)
  | .simpleBaseString => some (.sized .simpleBaseString none)
  | _ => none

/-- A simple bit array with two dimensions. -/
def bitMatrix : Object := .array ⟨0, true, .bit, [2, 2], []⟩

theorem has_wide_bitMatrix :
    (Specifier.sized .simpleBitVector none).Has up .wide bitMatrix := ⟨_, rfl, rfl, rfl, trivial⟩

theorem not_has_bitMatrix : ¬ Name.Has .simpleBitVector bitMatrix := by
  rintro ⟨array, harray, -, -, hdimensions⟩
  cases harray
  cases hdimensions with
  | cons _ htail => cases htail

theorem argumentless_spec {name : Name} {list : Specifier} (h : argumentless name = some list) :
    list.Plain ∧ ((∀ x, name.Has x ↔ list.Has up .wide x) ↔ name ≠ .simpleBitVector) := by
  cases name with
  | simpleBitVector =>
    cases h
    refine ⟨trivial, fun hhas => ?_, fun hne => absurd rfl hne⟩
    exact absurd ((hhas bitMatrix).mpr has_wide_bitMatrix) not_has_bitMatrix
  | integer =>
    cases h
    exact ⟨trivial, fun _ => Name.noConfusion, fun _ _ => isInteger_congr fun _ =>
      and_self_iff.symm⟩
  | cons =>
    cases h
    refine ⟨trivial, fun _ => Name.noConfusion, fun _ x => ?_⟩
    constructor
    · rintro ⟨address, car, cdr, rfl⟩
      exact ⟨address, car, cdr, rfl, trivial⟩
    · rintro ⟨address, car, cdr, rfl, -⟩
      exact ⟨address, car, cdr, rfl⟩
  | _ =>
    first
      | cases h
        exact ⟨trivial, fun _ => Name.noConfusion, fun _ _ => Iff.rfl⟩
      | cases h

/-- **Canonical types keep the meaning exactly where the two readings agree**: in every run of
`canonicalize-type` on plain type specifiers, the canonical type of a type specifier means what the
type specifier means if and only if the lists `(SIMPLE-BIT-VECTOR)` in it may as well be read as
`(SIMPLE-ARRAY BIT *)`; and a name has the same meaning as the list without arguments, unless it
is `SIMPLE-BIT-VECTOR`. -/
theorem canonicalizeType_means_iff (up : Upgrading) {types : List Specifier}
    (htypes : ∀ type ∈ types, type.Plain) {type : Specifier} (h : type.Plain) :
    ((∀ x, (canonicalizeType type (canonicalTypes types)).canonicalType.Has up .standard x ↔
        type.Has up .standard x) ↔
      ∀ x, type.Has up .wide x ↔ type.Has up .standard x) ∧
    ∀ name list, argumentless name = some list →
      ((∀ x, (canonicalizeType (.atom name) (canonicalTypes types)).canonicalType.Has up
          .standard x ↔
        (canonicalizeType list (canonicalTypes types)).canonicalType.Has up .standard x) ↔
        name ≠ .simpleBitVector) := by
  refine ⟨forall_congr' fun x => ?_, fun name list hlist => ?_⟩
  · rw [has_canonicalizeType htypes h]
  · have hspec := @argumentless_spec up _ _ hlist
    rw [← hspec.2]
    refine forall_congr' fun x => ?_
    have hname : (Specifier.atom name).Plain := trivial
    rw [has_canonicalizeType htypes hname, has_canonicalizeType htypes hspec.1]
    rfl

theorem canonicalizeType_means_iff_bits :
    ((∀ x, (canonicalizeType (.array2 .array (.atom .bit) .star)
          (canonicalTypes [.atom .bitVector])).canonicalType.Has .smallest .standard x ↔
        (Specifier.array2 .array (.atom .bit) .star).Has .smallest .standard x) ↔
      ∀ x, (Specifier.array2 .array (.atom .bit) .star).Has .smallest .wide x ↔
        (Specifier.array2 .array (.atom .bit) .star).Has .smallest .standard x) ∧
    ∀ name list, argumentless name = some list →
      ((∀ x, (canonicalizeType (.atom name)
            (canonicalTypes [.atom .bitVector])).canonicalType.Has .smallest .standard x ↔
        (canonicalizeType list
            (canonicalTypes [.atom .bitVector])).canonicalType.Has .smallest .standard x) ↔
        name ≠ .simpleBitVector) :=
  canonicalizeType_means_iff .smallest
    (fun _ hmem => by
      rw [List.mem_singleton.mp hmem]
      trivial) trivial

/-- The canonical type of the list `(SIMPLE-BIT-VECTOR)` has arrays with two dimensions. -/
theorem not_canonicalizeType_means :
    ¬ ∀ (up : Upgrading) (types : List Specifier) (type : Specifier) (x : Object),
      (canonicalizeType type (canonicalTypes types)).canonicalType.Has up .standard x ↔
        type.Has up .standard x := by
  intro h
  have hnil : ∀ type ∈ ([] : List Specifier), type.Plain := fun _ hmem => by cases hmem
  have hlist : (Specifier.sized .simpleBitVector none).Plain := trivial
  have hhas := h .smallest [] (.sized .simpleBitVector none) bitMatrix
  rw [has_canonicalizeType hnil hlist] at hhas
  exact not_has_bitMatrix (hhas.mp has_wide_bitMatrix)

end Xcl.Types
