import Xcl.Types.Canonicalize

/-!
# The meaning of type specifiers

* `Upgrading`: how an implementation upgrades element types; the upgraded type depends on the
  objects of the type only;
* **`has_of_equal`**: plain type specifiers that are `EQUAL` mean the same.
-/

namespace Xcl.Types

open Numbers (InFixnumRange)

structure Upgrading where
  of : (Object → Prop) → ElementType
  bit : of (Name.Has .bit) = .bit
  character : of (Name.Has .character) = .character
  nil : of (Name.Has .nil) = .nil
  t : of (Name.Has .t) = .t

open Classical in
/-- The upgrading to the smallest of the element types that contains a type. -/
noncomputable def Upgrading.smallest : Upgrading where
  of type :=
    if ∀ x, ¬ type x then .nil
    else if ∀ x, type x → Name.Has .bit x then .bit
    else if ∀ x, type x → IsInteger (fun n => 0 ≤ n ∧ n ≤ 255) x then .ub8
    else if ∀ x, type x → IsInteger (fun n => 0 ≤ n ∧ n ≤ 65535) x then .ub16
    else if ∀ x, type x → IsInteger (fun n => 0 ≤ n ∧ n ≤ 4294967295) x then .ub32
    else if ∀ x, type x → Name.Has .character x then .character
    else .t
  bit := by
    have hzero : Name.Has .bit (.integer 0 0) := ⟨0, 0, rfl, by decide⟩
    rw [if_neg fun h => h _ hzero, if_pos fun _ h => h]
  character := by
    have hnul : Name.Has .character (.character 0) := ⟨0, rfl⟩
    have hnot : ∀ {p : ℤ → Prop}, ¬ IsInteger p (.character 0) := by
      rintro p ⟨_, _, h, -⟩
      cases h
    rw [if_neg fun h => h _ hnul, if_neg fun h => hnot (h _ hnul), if_neg fun h => hnot (h _ hnul),
      if_neg fun h => hnot (h _ hnul), if_neg fun h => hnot (h _ hnul), if_pos fun _ h => h]
  nil := if_pos fun _ h => h
  t := by
    have hnot : ∀ {p : ℤ → Prop}, ¬ IsInteger p .null := by
      rintro p ⟨_, _, h, -⟩
      cases h
    have hchar : ¬ Name.Has .character .null := by
      rintro ⟨_, h⟩
      cases h
    rw [if_neg fun h => h .null trivial, if_neg fun h => hnot (h .null trivial),
      if_neg fun h => hnot (h .null trivial), if_neg fun h => hnot (h .null trivial),
      if_neg fun h => hnot (h .null trivial), if_neg fun h => hchar (h .null trivial)]

/-- The integers of `SIGNED-BYTE`. -/
def signedBytes : Option Width → ℤ → Prop
  | some (.bits n), m => -2 ^ ((n : ℕ) - 1) ≤ m ∧ m < 2 ^ ((n : ℕ) - 1)
  | _, _ => True

/-- The integers of `UNSIGNED-BYTE`. -/
def unsignedBytes : Option Width → ℤ → Prop
  | some (.bits n), m => 0 ≤ m ∧ m < 2 ^ (n : ℕ)
  | _, m => 0 ≤ m

/-- How the list `(SIMPLE-BIT-VECTOR)` is read: as the language prescribes, or as
`(SIMPLE-ARRAY BIT *)`, the arrays of all ranks. -/
inductive Reading
  | standard
  | wide
  deriving DecidableEq

/-- The objects of a list with a name that takes a size. -/
def SizedName.HasSize : Reading → SizedName → Option Dimension → Object → Prop
  | .wide, .simpleBitVector, none, x => HasArray .simpleArray (· = .bit) .star x
  | _, name, size, x => name.Has (size.getD .star) x

section

variable (up : Upgrading)

mutual

/-- The objects that belong to a type specifier. The standard reading is that of the language. The
parts of a `CONS` type, which are not canonicalized, have no other one. -/
def Specifier.Has (reading : Reading) : Specifier → Object → Prop
  | .atom name, x => name.Has x
  | .integer args, x => IsInteger (Within args) x
  | .interval name args, x => name.Has (Within args) x
  | .mod n, x => IsInteger (fun m => 0 ≤ m ∧ m < n) x
  | .signedByte width, x => IsInteger (signedBytes width) x
  | .unsignedByte width, x => IsInteger (unsignedBytes width) x
  | .eql object, x => eql object x = true
  | .cons args, x =>
    ∃ address car cdr, x = .cons address car cdr ∧ Specifiers.HaveParts .standard args car cdr
  | .and types, x => Specifiers.All reading types x
  | .or types, x => Specifiers.Any reading types x
  | .array0 name, x => HasArray name (fun _ => True) .star x
  | .array1 name elementType, x =>
    HasArray name
      (fun type => elementType.isStar = true ∨ type = up.of (Specifier.Has reading elementType))
      .star x
  | .array2 name elementType dimensions, x =>
    HasArray name
      (fun type => elementType.isStar = true ∨ type = up.of (Specifier.Has reading elementType))
      dimensions x
  | .vector0, x => HasArray .array (fun _ => True) (.list [.star]) x
  | .vector1 elementType, x =>
    HasArray .array
      (fun type => elementType.isStar = true ∨ type = up.of (Specifier.Has reading elementType))
      (.list [.star]) x
  | .vector2 elementType size, x =>
    HasArray .array
      (fun type => elementType.isStar = true ∨ type = up.of (Specifier.Has reading elementType))
      (.list [size]) x
  | .sized name size, x => name.HasSize reading size x

def Specifiers.All (reading : Reading) : Specifiers → Object → Prop
  | .nil, _ => True
  | .cons type types, x => Specifier.Has reading type x ∧ Specifiers.All reading types x

def Specifiers.Any (reading : Reading) : Specifiers → Object → Prop
  | .nil, _ => False
  | .cons type types, x => Specifier.Has reading type x ∨ Specifiers.Any reading types x

def Specifiers.HaveParts (reading : Reading) : Specifiers → Object → Object → Prop
  | .nil, _, _ => True
  | .cons type types, car, cdr =>
    Specifier.Has reading type car ∧ Specifiers.HasFirst reading types cdr

def Specifiers.HasFirst (reading : Reading) : Specifiers → Object → Prop
  | .nil, _ => True
  | .cons type _, x => Specifier.Has reading type x

end

end

mutual

/-- `EQUAL` tells the objects in the type specifier from all others that are not `EQL` to them. -/
def Specifier.Plain : Specifier → Prop
  | .eql object => ∀ x, equal object x = true → eql object x = true
  | .cons args => args.Plain
  | .and types => types.Plain
  | .or types => types.Plain
  | .array1 _ elementType => elementType.Plain
  | .array2 _ elementType _ => elementType.Plain
  | .vector1 elementType => elementType.Plain
  | .vector2 elementType _ => elementType.Plain
  | _ => True

def Specifiers.Plain : Specifiers → Prop
  | .nil => True
  | .cons type types => type.Plain ∧ types.Plain

end

section

variable {up : Upgrading} {reading : Reading} {x : Object}

def Elements (up : Upgrading) (reading : Reading) (elementType : Specifier)
    (type : ElementType) : Prop :=
  elementType.isStar = true ∨ type = up.of (elementType.Has up reading)

theorem elements_congr {type1 type2 : Specifier} (hstar : type1.isStar = type2.isStar)
    (h : ∀ x, type1.Has up reading x ↔ type2.Has up reading x) :
    Elements up reading type1 = Elements up reading type2 := by
  have hhas : type1.Has up reading = type2.Has up reading := by
    funext x
    exact propext (h x)
  funext type
  rw [Elements, Elements, hstar, hhas]

theorem hasArray_congr {name : ArrayName} {dimensions : Dimensions} {type1 type2 : Specifier}
    (hstar : type1.isStar = type2.isStar)
    (h : ∀ x, type1.Has up reading x ↔ type2.Has up reading x) :
    HasArray name (Elements up reading type1) dimensions x ↔
      HasArray name (Elements up reading type2) dimensions x := by
  rw [elements_congr hstar h]

theorem isStar_of_equal {type1 type2 : Specifier} (h : type1.equal type2 = true) :
    type1.isStar = type2.isStar := by
  cases type1 with
  | atom name =>
    cases type2 with
    | atom => rw [of_decide_eq_true h]
    | _ => exact absurd h Bool.false_ne_true
  | _ =>
    cases type2 with
    | atom => exact absurd h Bool.false_ne_true
    | _ => rfl

/-! ## `EQUAL` type specifiers -/

mutual

theorem has_of_equal : ∀ {type1 type2 : Specifier}, type1.equal type2 = true → type1.Plain →
    ∀ reading x, type1.Has up reading x ↔ type2.Has up reading x
  | .atom name1, type2, h, _, reading, x => by
    cases type2 with
    | atom name2 => rw [of_decide_eq_true h]
    | _ => exact absurd h Bool.false_ne_true
  | .integer args1, type2, h, _, reading, x => by
    cases type2 with
    | integer args2 => rw [of_decide_eq_true h]
    | _ => exact absurd h Bool.false_ne_true
  | .interval name1 args1, type2, h, _, reading, x => by
    cases type2 with
    | interval name2 args2 =>
      have h' := Bool.and_eq_true_iff.mp h
      rw [of_decide_eq_true h'.1, of_decide_eq_true h'.2]
    | _ => exact absurd h Bool.false_ne_true
  | .mod n1, type2, h, _, reading, x => by
    cases type2 with
    | mod n2 => rw [of_decide_eq_true h]
    | _ => exact absurd h Bool.false_ne_true
  | .signedByte width1, type2, h, _, reading, x => by
    cases type2 with
    | signedByte width2 => rw [of_decide_eq_true h]
    | _ => exact absurd h Bool.false_ne_true
  | .unsignedByte width1, type2, h, _, reading, x => by
    cases type2 with
    | unsignedByte width2 => rw [of_decide_eq_true h]
    | _ => exact absurd h Bool.false_ne_true
  | .eql object1, type2, h, hplain, reading, x => by
    cases type2 with
    | eql object2 =>
      have heql := hplain object2 h
      exact ⟨eql_trans (eql_symm heql), eql_trans heql⟩
    | _ => exact absurd h Bool.false_ne_true
  | .cons args1, type2, h, hplain, reading, x => by
    cases type2 with
    | cons args2 =>
      have hparts := (all_of_equal h hplain .standard).2.2
      have heq : Specifiers.HaveParts up .standard args1 =
          Specifiers.HaveParts up .standard args2 := by
        funext car cdr
        exact propext (hparts car cdr).1
      simp only [Specifier.Has, heq]
    | _ => exact absurd h Bool.false_ne_true
  | .and types1, type2, h, hplain, reading, x => by
    cases type2 with
    | and types2 => exact (all_of_equal h hplain reading).1 x
    | _ => exact absurd h Bool.false_ne_true
  | .or types1, type2, h, hplain, reading, x => by
    cases type2 with
    | or types2 => exact (all_of_equal h hplain reading).2.1 x
    | _ => exact absurd h Bool.false_ne_true
  | .array0 name1, type2, h, _, reading, x => by
    cases type2 with
    | array0 name2 => rw [of_decide_eq_true h]
    | _ => exact absurd h Bool.false_ne_true
  | .array1 name1 elementType1, type2, h, hplain, reading, x => by
    cases type2 with
    | array1 name2 elementType2 =>
      have h' := Bool.and_eq_true_iff.mp h
      rw [of_decide_eq_true h'.1]
      exact hasArray_congr (isStar_of_equal h'.2) (has_of_equal h'.2 hplain reading)
    | _ => exact absurd h Bool.false_ne_true
  | .array2 name1 elementType1 dimensions1, type2, h, hplain, reading, x => by
    cases type2 with
    | array2 name2 elementType2 dimensions2 =>
      have h' := Bool.and_eq_true_iff.mp h
      have h'' := Bool.and_eq_true_iff.mp h'.1
      rw [of_decide_eq_true h''.1, of_decide_eq_true h'.2]
      exact hasArray_congr (isStar_of_equal h''.2) (has_of_equal h''.2 hplain reading)
    | _ => exact absurd h Bool.false_ne_true
  | .vector0, type2, h, _, reading, x => by
    cases type2 with
    | vector0 => rfl
    | _ => exact absurd h Bool.false_ne_true
  | .vector1 elementType1, type2, h, hplain, reading, x => by
    cases type2 with
    | vector1 elementType2 =>
      have hmember : elementType1.equal elementType2 = true := h
      exact hasArray_congr (isStar_of_equal hmember) (has_of_equal hmember hplain reading)
    | _ => exact absurd h Bool.false_ne_true
  | .vector2 elementType1 size1, type2, h, hplain, reading, x => by
    cases type2 with
    | vector2 elementType2 size2 =>
      have h' := Bool.and_eq_true_iff.mp h
      rw [of_decide_eq_true h'.2]
      exact hasArray_congr (isStar_of_equal h'.1) (has_of_equal h'.1 hplain reading)
    | _ => exact absurd h Bool.false_ne_true
  | .sized name1 size1, type2, h, _, reading, x => by
    cases type2 with
    | sized name2 size2 =>
      have h' := Bool.and_eq_true_iff.mp h
      rw [of_decide_eq_true h'.1, of_decide_eq_true h'.2]
    | _ => exact absurd h Bool.false_ne_true

theorem all_of_equal : ∀ {types1 types2 : Specifiers}, types1.equal types2 = true →
    types1.Plain → ∀ reading, (∀ x, types1.All up reading x ↔ types2.All up reading x) ∧
      (∀ x, types1.Any up reading x ↔ types2.Any up reading x) ∧
      ∀ car cdr, (types1.HaveParts up reading car cdr ↔ types2.HaveParts up reading car cdr) ∧
        (types1.HasFirst up reading cdr ↔ types2.HasFirst up reading cdr)
  | .nil, types2, h, _, _ => by
    cases types2 with
    | nil => exact ⟨fun _ => Iff.rfl, fun _ => Iff.rfl, fun _ _ => ⟨Iff.rfl, Iff.rfl⟩⟩
    | cons => exact absurd h Bool.false_ne_true
  | .cons type1 types1, types2, h, hplain, reading => by
    cases types2 with
    | nil => exact absurd h Bool.false_ne_true
    | cons type2 types2 =>
      have h' := Bool.and_eq_true_iff.mp h
      have hhas := has_of_equal h'.1 hplain.1 reading
      obtain ⟨hall, hany, hparts⟩ := all_of_equal h'.2 hplain.2 reading
      refine ⟨fun x => and_congr (hhas x) (hall x), fun x => or_congr (hhas x) (hany x),
        fun car cdr => ⟨and_congr (hhas car) (hparts car cdr).2, hhas cdr⟩⟩

end

end

end Xcl.Types
