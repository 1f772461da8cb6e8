import Xcl.Types.Specifier

/-!
# Canonical types

* `canonical`: the canonical form of a type specifier, without the table of canonical types.
-/

namespace Xcl.Types

open Numbers (InFixnumRange mostNegativeFixnum mostPositiveFixnum)

/-- The list `(INTEGER low high)`. -/
def integerType (low high : Bound ℤ) : Specifier := .integer [low, high]

/-- The list of types with one or three members. -/
def Specifiers.ofList : List Specifier → Specifiers
  | [] => .nil
  | type :: types => .cons type (ofList types)

/-- The one-dimensional arrays of some element types. -/
def vectorType (name : ArrayName) (elementType : Specifier) (size : Dimension) : Specifier :=
  .array2 name elementType (.list [size])

/-- The union that is the canonical form of `STRING` and `SIMPLE-STRING`. -/
def stringType (name : ArrayName) (size : Dimension) : Specifier :=
  .or (.ofList [vectorType name (.atom .character) size, vectorType name (.atom .baseChar) size,
    vectorType name (.atom .nil) size])

def canonicalizeAtomicType : Name → Specifier
  | .bit => integerType (.incl 0) (.incl 1)
  | .fixnum => integerType (.incl mostNegativeFixnum) (.incl mostPositiveFixnum)
  | .integer => integerType .star .star
  | .signedByte => integerType .star .star
  | .unsignedByte => integerType (.incl 0) .star
  | .baseChar => .atom .baseChar
  | .shortFloat => .atom .singleFloat
  | .longFloat => .atom .doubleFloat
  | .array => .array2 .array (.atom .star) .star
  | .simpleArray => .array2 .simpleArray (.atom .star) .star
  | .vector => vectorType .array (.atom .star) .star
  | .simpleVector => vectorType .simpleArray (.atom .t) .star
  | .bitVector => vectorType .array (integerType (.incl 0) (.incl 1)) .star
  | .simpleBitVector => vectorType .simpleArray (integerType (.incl 0) (.incl 1)) .star
  | .baseString => vectorType .array (.atom .baseChar) .star
  | .simpleBaseString => vectorType .simpleArray (.atom .baseChar) .star
  | .string => stringType .array .star
  | .simpleString => stringType .simpleArray .star
  | .cons => .cons (.ofList [.atom .t, .atom .t])
  | name => .atom name

def canonicalizeEqlType : Object → Specifier
  | .integer _ n => integerType (.incl n) (.incl n)
  | object => .eql object

/-- A bound as `%canonicalize-type` leaves it in a list with the name `INTEGER`. -/
def inclusiveLow : Bound ℤ → Bound ℤ
  | .excl n => .incl (n + 1)
  | low => low

def inclusiveHigh : Bound ℤ → Bound ℤ
  | .excl n => .incl (n - 1)
  | high => high

/-- The `INTEGER` clause of `%canonicalize-type`. -/
def canonicalizeInteger : List (Bound ℤ) → Specifier
  | [] => .atom .integer
  | args => integerType (inclusiveLow (bounds args).1) (inclusiveHigh (bounds args).2)

/-- The clauses for the other interval types. -/
def canonicalizeInterval (name : IntervalName) (args : List (Bound ℚ)) : Specifier :=
  let name := match name with
    | .shortFloat => .singleFloat
    | .longFloat => .doubleFloat
    | name => name
  match args with
  | [] => .atom name.name
  | args => .interval name args

/-- The first two arguments of `CONS`. -/
def consTypespecs : Specifiers → Specifier × Specifier
  | .nil => (.atom .t, .atom .t)
  | .cons carTypespec .nil => (carTypespec, .atom .t)
  | .cons carTypespec (.cons cdrTypespec _) => (carTypespec, cdrTypespec)

def starToT : Specifier → Specifier
  | .atom .star => .atom .t
  | typespec => typespec

def Specifier.isStar : Specifier → Bool
  | .atom .star => true
  | _ => false

def Specifier.isNil : Specifier → Bool
  | .atom .nil => true
  | _ => false

/-- The `CONS` clause of `%canonicalize-type`. -/
def canonicalizeCons (args : Specifiers) : Specifier :=
  let (carTypespec, cdrTypespec) := consTypespecs args
  if carTypespec.isNil || cdrTypespec.isNil then .atom .nil
  else .cons (.ofList [starToT carTypespec, starToT cdrTypespec])

/-- The `SIGNED-BYTE` clause of `%canonicalize-type`. -/
def canonicalizeSignedByte : Option Width → Specifier
  | some (.bits n) => integerType (.incl (-2 ^ ((n : ℕ) - 1))) (.incl (2 ^ ((n : ℕ) - 1) - 1))
  | _ => integerType .star .star

/-- The `UNSIGNED-BYTE` clause of `%canonicalize-type`. -/
def canonicalizeUnsignedByte : Option Width → Specifier
  | some (.bits n) => integerType (.incl 0) (.incl (2 ^ (n : ℕ) - 1))
  | _ => integerType (.incl 0) .star

/-- The clauses of `%canonicalize-type` for the names that take a size. -/
def canonicalizeSized : SizedName → Option Dimension → Specifier
  | .simpleVector, size => vectorType .simpleArray (.atom .t) (size.getD .star)
  | .bitVector, size => vectorType .array (integerType (.incl 0) (.incl 1)) (size.getD .star)
  | .simpleBitVector, none => .array2 .simpleArray (integerType (.incl 0) (.incl 1)) .star
  | .simpleBitVector, some size =>
    vectorType .simpleArray (integerType (.incl 0) (.incl 1)) size
  | .string, size => stringType .array (size.getD .star)
  | .simpleString, size => stringType .simpleArray (size.getD .star)
  | .baseString, size => vectorType .array (.atom .baseChar) (size.getD .star)
  | .simpleBaseString, size => vectorType .simpleArray (.atom .baseChar) (size.getD .star)

/-- The larger of two lower bounds in `canonicalize-and-type`. -/
def maxLow : Bound ℤ → Bound ℤ → Bound ℤ
  | .star, low2 => low2
  | low1, .star => low1
  | .incl low1, .incl low2 => .incl (max low1 low2)
  | low1, _ => low1

/-- The smaller of two upper bounds in `canonicalize-and-type`. -/
def minHigh : Bound ℤ → Bound ℤ → Bound ℤ
  | .star, high2 => high2
  | high1, .star => high1
  | .incl high1, .incl high2 => .incl (min high1 high2)
  | high1, _ => high1

/-- A lower bound lies above an upper bound. -/
def Bound.gt : Bound ℤ → Bound ℤ → Bool
  | .incl low, .incl high => low > high
  | _, _ => false

/-- The intersections of two canonical types that `canonicalize-and-type` knows. -/
def intersection : Specifier → Specifier → Option Specifier
  | .atom .symbol, .atom .list => some (.atom .null)
  | .atom .list, .atom .symbol => some (.atom .null)
  | .integer [low1, high1], .integer [low2, high2] =>
    if low2.gt high1 then some (.atom .nil)
    else if low1.gt high2 then some (.atom .nil)
    else some (integerType (maxLow low1 low2) (minHigh high1 high2))
  | _, _ => none

/-- The end of `canonicalize-and-type`, from the canonical types of the members. -/
def canonicalizeAndType : Specifiers → Specifier
  | .cons type1 (.cons type2 .nil) =>
    (intersection type1 type2).getD (.and (.ofList [type1, type2]))
  | types => .and types

/-- The two unions that `canonicalize-or-type` abbreviates. -/
def isList : Specifiers → Bool
  | .cons (.atom .cons) (.cons (.atom .null) .nil) => true
  | .cons (.atom .null) (.cons (.atom .cons) .nil) => true
  | _ => false

/-! ## Without the table -/

mutual

def canonical : Specifier → Specifier
  | .atom name => canonicalizeAtomicType name
  | .integer args => canonicalizeInteger args
  | .interval name args => canonicalizeInterval name args
  | .mod n => integerType (.incl 0) (.incl (n - 1))
  | .signedByte width => canonicalizeSignedByte width
  | .unsignedByte width => canonicalizeUnsignedByte width
  | .eql object => canonicalizeEqlType object
  | .cons args => canonicalizeCons args
  | .and types => canonicalizeAndType (canonicals types)
  | .or types => if isList types then .atom .list else .or (canonicals types)
  | .array0 name => .array2 name (.atom .star) .star
  | .array1 name elementType => .array2 name (canonical elementType) .star
  | .array2 name elementType dimensions => .array2 name (canonical elementType) dimensions
  | .vector0 => vectorType .array (.atom .star) .star
  | .vector1 elementType => vectorType .array (canonical elementType) .star
  | .vector2 elementType size => vectorType .array (canonical elementType) size
  | .sized name size => canonicalizeSized name size

def canonicals : Specifiers → Specifiers
  | .nil => .nil
  | .cons type types => .cons (canonical type) (canonicals types)

end

/-! ## Element types -/

/-- The lower bound that `upgrade_integer_type` finds. -/
def upgradeLower : Bound ℤ → Option ℤ
  | .excl n =>
    if InFixnumRange n then if n < mostPositiveFixnum then some (n + 1) else none
    else some mostNegativeFixnum
  | .incl n => if InFixnumRange n then some n else none
  | .star => none

def upgradeUpper : Bound ℤ → Option ℤ
  | .excl n =>
    if InFixnumRange n then if n > mostNegativeFixnum then some (n - 1) else none
    else some mostPositiveFixnum
  | .incl n => if InFixnumRange n then some n else none
  | .star => none

def upgradeIntegerType (lower upper : Bound ℤ) : ElementType :=
  match upgradeLower lower, upgradeUpper upper with
  | some l, some u =>
    if 0 ≤ l then
      if u ≤ 1 then .bit
      else if u ≤ 255 then .ub8
      else if u ≤ 65535 then .ub16
      else if u ≤ 4294967295 then .ub32
      else .t
    else .t
  | _, _ => .t

/-- `%upgraded-array-element-type` -/
def percentUpgradedArrayElementType : Specifier → ElementType
  | .atom .character | .atom .baseChar | .atom .standardChar => .character
  | .atom .bit => .bit
  | .atom .nil => .nil
  | .unsignedByte (some (.bits n)) =>
    if n = 1 then .bit
    else if n ≤ 8 then .ub8
    else if n ≤ 16 then .ub16
    else if n ≤ 32 then .ub32
    else .t
  | .integer [lower, upper] => upgradeIntegerType lower upper
  | _ => .t

/-! ## With the table -/

/-- The table `+canonical-types+`. -/
abbrev Cache := List (Specifier × Specifier)

namespace Cache

def gethash (type : Specifier) : Cache → Option Specifier
  | [] => none
  | (key, value) :: cache => if key.equal type then some value else gethash type cache

def puthash (type canonicalType : Specifier) : Cache → Cache
  | [] => [(type, canonicalType)]
  | (key, value) :: cache =>
    if key.equal type then (key, canonicalType) :: cache
    else (key, value) :: puthash type canonicalType cache

end Cache

/-- What a call returns, the type specifier after the call, which may have changed, and the
table. -/
structure Outcome where
  canonicalType : Specifier
  type : Specifier
  cache : Cache

structure Outcomes where
  canonicalTypes : Specifiers
  types : Specifiers
  cache : Cache

/-- The end of `canonicalize-type`: a canonical type is put into the table unless it is `NIL` or a
list with `EQL`. -/
def Outcome.remember (outcome : Outcome) : Outcome :=
  match outcome.canonicalType with
  | .atom .nil | .eql _ => outcome
  | canonicalType =>
    { outcome with cache := outcome.cache.puthash outcome.type canonicalType }

/-- `canonicalize-type`, with `%canonicalize-type` of its argument. -/
def lookUp (type : Specifier) (percentCanonicalizeType : Cache → Outcome) (cache : Cache) :
    Outcome :=
  match cache.gethash type with
  | some canonicalType => ⟨canonicalType, type, cache⟩
  | none => (percentCanonicalizeType cache).remember

mutual

/-- `%canonicalize-type` -/
def percentCanonicalizeType : Specifier → Cache → Outcome
  | .and types, cache =>
    let first := canonicalizeTypes types cache
    match first.canonicalTypes with
    | .cons type1 (.cons type2 .nil) =>
      match intersection type1 type2 with
      | some type => ⟨type, .and first.types, first.cache⟩
      | none =>
        -- the members are canonicalized once more
        let second := canonicalizeTypesAgain types first.types first.cache
        ⟨.and second.canonicalTypes, .and second.types, second.cache⟩
    | canonicalTypes => ⟨.and canonicalTypes, .and first.types, first.cache⟩
  | .or types, cache =>
    if isList types then ⟨.atom .list, .or types, cache⟩
    else
      let outcomes := percentCanonicalizeTypes types cache
      ⟨.or outcomes.canonicalTypes, .or outcomes.types, outcomes.cache⟩
  | .array1 name elementType, cache =>
    -- the arguments are copied
    let outcome := percentCanonicalizeType elementType cache
    ⟨.array2 name outcome.canonicalType .star, .array1 name outcome.type, outcome.cache⟩
  | .array2 name elementType dimensions, cache =>
    let outcome := percentCanonicalizeType elementType cache
    ⟨.array2 name outcome.canonicalType dimensions,
      .array2 name outcome.canonicalType dimensions, outcome.cache⟩
  | .vector1 elementType, cache =>
    let outcome := percentCanonicalizeType elementType cache
    ⟨vectorType .array outcome.canonicalType .star, .vector1 outcome.canonicalType, outcome.cache⟩
  | .vector2 elementType size, cache =>
    let outcome := percentCanonicalizeType elementType cache
    ⟨vectorType .array outcome.canonicalType size, .vector2 outcome.canonicalType size,
      outcome.cache⟩
  | type, cache => ⟨canonical type, type, cache⟩

/-- `%canonicalize-type` of all members. -/
def percentCanonicalizeTypes : Specifiers → Cache → Outcomes
  | .nil, cache => ⟨.nil, .nil, cache⟩
  | .cons type types, cache =>
    let outcome := percentCanonicalizeType type cache
    let outcomes := percentCanonicalizeTypes types outcome.cache
    ⟨.cons outcome.canonicalType outcomes.canonicalTypes, .cons outcome.type outcomes.types,
      outcomes.cache⟩

/-- `canonicalize-type` of all members. -/
def canonicalizeTypes : Specifiers → Cache → Outcomes
  | .nil, cache => ⟨.nil, .nil, cache⟩
  | .cons type types, cache =>
    let outcome := lookUp type (percentCanonicalizeType type) cache
    let outcomes := canonicalizeTypes types outcome.cache
    ⟨.cons outcome.canonicalType outcomes.canonicalTypes, .cons outcome.type outcomes.types,
      outcomes.cache⟩

/-- `canonicalize-type` of all members after `canonicalizeTypes` has changed them. A member that is
not in the table has not been changed. -/
def canonicalizeTypesAgain : Specifiers → Specifiers → Cache → Outcomes
  | .cons type types, .cons changed changedTypes, cache =>
    let outcome := lookUp changed (percentCanonicalizeType type) cache
    let outcomes := canonicalizeTypesAgain types changedTypes outcome.cache
    ⟨.cons outcome.canonicalType outcomes.canonicalTypes, .cons outcome.type outcomes.types,
      outcomes.cache⟩
  | _, _, cache => ⟨.nil, .nil, cache⟩

end

def canonicalizeType (type : Specifier) (cache : Cache) : Outcome :=
  lookUp type (percentCanonicalizeType type) cache

def upgradedArrayElementType (typespec : Specifier) (cache : Cache) : ElementType × Cache :=
  let outcome := canonicalizeType typespec cache
  (percentUpgradedArrayElementType outcome.canonicalType, outcome.cache)

end Xcl.Types
