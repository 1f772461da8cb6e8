import Xcl.Types.Canonicalize

/-!
# `subtypep`

* `knownTypes`, `precedenceList`: the table `*known-types*`, and the classes;
* `dimensionSubtypep`, `subtypepArray`: array types.

A class is only met by its name, and two lists that are `EQ` are `EQUAL`, for which the answer is
the same.
-/

namespace Xcl.Types

/-! ## Names -/

/-- The table `*known-types*`. -/
def knownTypes : Name → Option (List Name)
  | .array => some []
  | .atom => some []
  | .baseChar => some [.character]
  | .baseString => some [.string, .vector, .array, .sequence]
  | .bignum => some [.integer, .signedByte, .rational, .real, .number]
  | .bit => some [.fixnum, .unsignedByte, .integer, .signedByte, .rational, .real, .number]
  | .bitVector => some [.vector, .array, .sequence]
  | .boolean => some [.symbol]
  | .character => some [.baseChar]
  | .complex => some [.number]
  | .cons => some [.list, .sequence]
  | .doubleFloat => some [.longFloat, .float, .real, .number]
  | .extendedChar => some [.nil, .character]
  | .fixnum => some [.integer, .signedByte, .rational, .real, .number]
  | .float => some [.real, .number]
  | .integer => some [.signedByte, .rational, .real, .number]
  | .keyword => some [.symbol]
  | .list => some [.sequence]
  | .longFloat => some [.doubleFloat, .float, .real, .number]
  | .nilVector => some [.simpleString, .string, .vector, .simpleArray, .array, .sequence]
  | .null => some [.boolean, .symbol, .list, .sequence]
  | .number => some []
  | .ratio => some [.rational, .real, .number]
  | .rational => some [.real, .number]
  | .real => some [.number]
  | .shortFloat => some [.singleFloat, .float, .real, .number]
  | .simpleArray => some [.array]
  | .simpleBaseString =>
    some [.baseString, .simpleString, .string, .vector, .simpleArray, .array, .sequence]
  | .simpleBitVector => some [.bitVector, .vector, .simpleArray, .array, .sequence]
  | .simpleString => some [.string, .vector, .simpleArray, .array, .sequence]
  | .simpleVector => some [.vector, .simpleArray, .array, .sequence]
  | .signedByte => some [.integer, .rational, .real, .number]
  | .singleFloat => some [.shortFloat, .float, .real, .number]
  | .standardChar => some [.baseChar, .character]
  | .string => some [.vector, .array, .sequence]
  | .symbol => some []
  | .vector => some [.array, .sequence]
  | .other _ => some []
  | _ => none

def knownTypeP (name : Name) : Bool := (knownTypes name).isSome

def simpleSubtypep (name1 name2 : Name) : Bool := ((knownTypes name1).getD []).contains name2

/-- The class precedence lists of the classes. -/
def precedenceList : Name → Option (List Name)
  | .array => some [.array, .t]
  | .bitVector => some [.bitVector, .vector, .array, .sequence, .t]
  | .character => some [.character, .t]
  | .complex => some [.complex, .number, .t]
  | .cons => some [.cons, .list, .sequence, .t]
  | .float => some [.float, .real, .number, .t]
  | .integer => some [.integer, .rational, .real, .number, .t]
  | .list => some [.list, .sequence, .t]
  | .nilVector => some [.nilVector, .string, .vector, .array, .sequence, .t]
  | .null => some [.null, .symbol, .list, .sequence, .t]
  | .number => some [.number, .t]
  | .ratio => some [.ratio, .rational, .real, .number, .t]
  | .rational => some [.rational, .real, .number, .t]
  | .real => some [.real, .number, .t]
  | .sequence => some [.sequence, .t]
  | .string => some [.string, .vector, .array, .sequence, .t]
  | .symbol => some [.symbol, .t]
  | .t => some [.t]
  | .vector => some [.vector, .array, .sequence, .t]
  | .other className => some [.other className, .t]
  | _ => none

/-- The two values of `subtypep`. -/
structure Answer where
  value : Bool
  certain : Bool
  deriving DecidableEq, Repr

def yes : Answer := ⟨true, true⟩

def no : Answer := ⟨false, true⟩

def unknown : Answer := ⟨false, false⟩

/-- The clauses of `%subtypep` for two names, unless they leave the answer open. -/
def subtypepNames (name1 name2 : Name) : Option Answer :=
  match precedenceList name1, precedenceList name2 with
  | some superclasses, some _ => some ⟨superclasses.contains name2, true⟩
  | _, _ =>
    if simpleSubtypep name1 name2 then some yes
    else if knownTypeP name1 && knownTypeP name2 then some no
    else none

/-! ## Arrays -/

/-- The loop of `dimension-subtypep`. -/
def dimensionsSubtypep : List Dimension → List Dimension → Bool
  | [], _ => true
  | e1 :: dim1, e2 :: dim2 => (e2 = .star || e1 = e2) && dimensionsSubtypep dim1 dim2
  | _ :: _, [] => false

def dimensionSubtypep (dim1 dim2 : Dimensions) : Bool :=
  if dim2 = .star then true
  else if dim1 = dim2 then true
  else
    match dim1, dim2 with
    | .list dimensions, .rank n => dimensions.length = n
    | _, .rank _ => false
    | .rank n, .list dimensions => dimensions = List.replicate n .star
    | .list dimensions1, .list dimensions2 =>
      dimensions1.length = dimensions2.length && dimensionsSubtypep dimensions1 dimensions2
    | _, _ => false

/-- The answer of `subtypep-array` for two array types whose names allow it. -/
def subtypepArray2 (e1 : Specifier) (d1 : Dimensions) (e2 : Specifier) (d2 : Dimensions)
    (cache : Cache) : Answer × Cache :=
  if e2.isStar ∧ d2 = .star then (yes, cache)
  else if e1.isStar ∧ ¬ e2.isStar then (no, cache)
  else if e2.isStar ∨ e1.equal e2 then (⟨dimensionSubtypep d1 d2, true⟩, cache)
  else
    let (upgraded1, cache) := upgradedArrayElementType e1 cache
    let (upgraded2, cache) := upgradedArrayElementType e2 cache
    (⟨upgraded1 = upgraded2 && dimensionSubtypep d1 d2, true⟩, cache)

/-- `subtypep-array`, where one of the types is an array type -/
def subtypepArray (type1 type2 : Specifier) (cache : Cache) : Answer × Cache :=
  match type1, type2 with
  | .array2 _ _ (.rank _), .atom .sequence => (yes, cache)
  | .array2 _ _ (.list [_]), .atom .sequence => (yes, cache)
  | .array2 .array _ _, .array2 .simpleArray _ _ => (no, cache)
  | .array2 _ e1 d1, .array2 _ e2 d2 => subtypepArray2 e1 d1 e2 d2 cache
  | _, _ => (no, cache)

/-! ## Other types without members -/

def Bound.toRat : Bound ℤ → Bound ℚ
  | .star => .star
  | .incl n => .incl n
  | .excl n => .excl n

def intervalOf : Specifier → Option (Name × List (Bound ℚ))
  | .atom name => some (name, [])
  | .integer args => some (.integer, args.map Bound.toRat)
  | .interval name args => some (name.name, args)
  | _ => none

/-- `known-type-p` of the name of a type. -/
def knownHead : Specifier → Bool
  | .atom name => knownTypeP name
  | .integer _ => true
  | .interval name _ => knownTypeP name.name
  | .cons _ => true
  | .array2 _ _ _ => true
  | _ => false

/-- The names of the types with which the bounds of a numeric type are compared. -/
def comparedTypes : Name → Option (List Name)
  | .integer => some [.integer, .rational, .real, .number]
  | .rational => some [.rational, .real, .number]
  | .float => some [.float, .real, .number]
  | .singleFloat | .shortFloat => some [.singleFloat, .shortFloat, .float, .real, .number]
  | .doubleFloat | .longFloat => some [.doubleFloat, .longFloat, .float, .real, .number]
  | .real => some [.real, .number]
  | _ => none

/-- The clauses of `%subtypep` for `INTEGER`, `RATIONAL`, `FLOAT`, `SINGLE-FLOAT`, `DOUBLE-FLOAT`,
`REAL` and `COMPLEX`, and the last one. -/
def subtypepNumeric (type1 type2 : Specifier) : Answer :=
  match intervalOf type1 with
  | none => unknown
  | some (t1, i1) =>
    match comparedTypes t1, intervalOf type2 with
    | some types, some (t2, i2) =>
      if types.contains t2 then ⟨subIntervalP i1 i2, true⟩
      else if t1 = .integer ∧ t2 = .bignum then
        ⟨subIntervalP i1 [.star, .excl Numbers.mostNegativeFixnum] ||
          subIntervalP i1 [.excl Numbers.mostPositiveFixnum, .star], true⟩
      else ⟨false, knownHead type2⟩
    | some _, none => ⟨false, knownHead type2⟩
    | none, _ => if t1 = .complex then no else unknown

/-! ## All types -/

/-- An answer, and the table. `none` where the bound on the depth is reached. -/
abbrev Reply := Option (Answer × Cache)

/-- The first tests of `%subtypep`, and the ones for two names. -/
def subtypepAtOnce (type1 type2 : Specifier) : Option Answer :=
  match type1, type2 with
  | _, .atom .t => some yes
  | .atom .nil, _ => some yes
  | .atom .cons, .atom .atom => some no
  | .atom .list, .atom .atom => some no
  | .atom .sequence, .atom .atom => some no
  | _, .atom .atom => some yes
  | .atom name1, .atom name2 => if name1 = name2 then some yes else subtypepNames name1 name2
  | _, _ => none

/-- The loop that ends with the first yes. -/
def anyYes (subtypep : Specifier → Cache → Reply) : Specifiers → Cache → Reply
  | .nil, cache => some (unknown, cache)
  | .cons type types, cache => do
    let (answer, cache) ← subtypep type cache
    if answer.value then some (yes, cache) else anyYes subtypep types cache

/-- The loop that ends with the first answer that is not yes. -/
def allYes (subtypep : Specifier → Cache → Reply) : Specifiers → Cache → Reply
  | .nil, cache => some (yes, cache)
  | .cons type types, cache => do
    let (answer, cache) ← subtypep type cache
    if answer.value then allYes subtypep types cache else some (answer, cache)

/-- The clauses of `%subtypep` for two canonical types. -/
def subtypepCanonical (typep : Object → Specifier → Bool)
    (percentSubtypep : Specifier → Specifier → Cache → Reply) (type1 type2 : Specifier)
    (cache : Cache) : Reply :=
  match type1, type2 with
  | .atom .nil, _ => some (yes, cache)
  -- the clause for `EQUAL` types is taken, and its body does nothing
  | .eql object1, .eql object2 =>
    if equal object1 object2 then some (unknown, cache)
    else some (⟨eql object1 object2, true⟩, cache)
  | .eql object, _ => some (⟨typep object type2, true⟩, cache)
  | _, _ =>
    if type1.equal type2 then some (yes, cache)
    else
      match type1, type2 with
      | .and types, _ => anyYes (percentSubtypep · type2) types cache
      | _, .and types => allYes (percentSubtypep type1 ·) types cache
      | .or types, _ => allYes (percentSubtypep · type2) types cache
      | _, .or types => anyYes (percentSubtypep type1 ·) types cache
      | .array2 _ _ _, _ => some (subtypepArray type1 type2 cache)
      | _, .array2 _ _ _ => some (subtypepArray type1 type2 cache)
      | .cons _, .atom .list => some (yes, cache)
      | .cons _, .atom .sequence => some (yes, cache)
      | .cons (.cons car1 (.cons cdr1 .nil)), .cons (.cons car2 (.cons cdr2 .nil)) => do
        let (answer, cache) ← percentSubtypep car1 car2 cache
        if answer.value then
          let (answer, cache) ← percentSubtypep cdr1 cdr2 cache
          some (if answer.value then yes else no, cache)
        else some (no, cache)
      | .cons _, _ => some (⟨false, knownHead type2⟩, cache)
      | _, _ => some (subtypepNumeric type1 type2, cache)

/-- `%subtypep` -/
def percentSubtypep (typep : Object → Specifier → Bool) :
    ℕ → Specifier → Specifier → Cache → Reply
  | 0, _, _, _ => none
  | depth + 1, type1, type2, cache =>
    match subtypepAtOnce type1 type2 with
    | some answer => some (answer, cache)
    | none =>
      let outcome1 := canonicalizeType type1 cache
      let outcome2 := canonicalizeType type2 outcome1.cache
      subtypepCanonical typep (percentSubtypep typep depth) outcome1.canonicalType
        outcome2.canonicalType outcome2.cache

end Xcl.Types
