import Mathlib.Data.PNat.Basic
import Xcl.Types.Interval
import Xcl.Types.Object

/-!
# Type specifiers

* `Name`, `Specifier`: the type specifiers; a name can stand alone or be the first element of a list
  with arguments or without;
* `Specifier.equal`: the test of the table of canonical types.
-/

namespace Xcl.Types

open Numbers (InFixnumRange)

/-- Type specifiers that are symbols, and the symbol `*`. The numbers stand for the other classes
directly below `T`. -/
inductive Name
  | t | nil | star | atom
  | number | real | rational | integer | signedByte | unsignedByte | fixnum | bit | bignum | ratio
  | float | shortFloat | singleFloat | doubleFloat | longFloat | complex
  | sequence | list | cons | null | symbol | boolean | keyword
  | character | baseChar | standardChar | extendedChar
  | array | simpleArray | vector | simpleVector | bitVector | simpleBitVector
  | string | simpleString | baseString | simpleBaseString | nilVector
  | other (className : ℕ)
  deriving DecidableEq, Repr

/-- The names that take bounds, except `INTEGER`. -/
inductive IntervalName
  | rational | real | float | shortFloat | singleFloat | doubleFloat | longFloat
  deriving DecidableEq, Repr

/-- The names that take an element type and dimensions. -/
inductive ArrayName
  | array | simpleArray
  deriving DecidableEq, Repr

/-- The names that take a size. -/
inductive SizedName
  | simpleVector | bitVector | simpleBitVector
  | string | simpleString | baseString | simpleBaseString
  deriving DecidableEq, Repr

def IntervalName.name : IntervalName → Name
  | rational => .rational
  | real => .real
  | float => .float
  | shortFloat => .shortFloat
  | singleFloat => .singleFloat
  | doubleFloat => .doubleFloat
  | longFloat => .longFloat

def ArrayName.name : ArrayName → Name
  | array => .array
  | simpleArray => .simpleArray

def SizedName.name : SizedName → Name
  | simpleVector => .simpleVector
  | bitVector => .bitVector
  | simpleBitVector => .simpleBitVector
  | string => .string
  | simpleString => .simpleString
  | baseString => .baseString
  | simpleBaseString => .simpleBaseString

/-- The argument of `SIGNED-BYTE` and `UNSIGNED-BYTE`. -/
inductive Width
  | star
  | bits (n : ℕ+)
  deriving DecidableEq

inductive Dimension
  | star
  | size (n : ℕ)
  deriving DecidableEq, Repr

/-- The dimensions of an array type: `*`, the rank, or the list of all of them. -/
inductive Dimensions
  | star
  | rank (n : ℕ)
  | list (dimensions : List Dimension)
  deriving DecidableEq, Repr

mutual

inductive Specifier
  | atom (name : Name)
  /-- The list `(INTEGER . args)`. -/
  | integer (args : List (Bound ℤ))
  | interval (name : IntervalName) (args : List (Bound ℚ))
  | mod (n : ℤ)
  | signedByte (width : Option Width)
  | unsignedByte (width : Option Width)
  | eql (object : Object)
  | cons (args : Specifiers)
  | and (types : Specifiers)
  | or (types : Specifiers)
  /-- The lists `(ARRAY)` and `(SIMPLE-ARRAY)`. -/
  | array0 (name : ArrayName)
  | array1 (name : ArrayName) (elementType : Specifier)
  | array2 (name : ArrayName) (elementType : Specifier) (dimensions : Dimensions)
  /-- The list `(VECTOR)`. -/
  | vector0
  | vector1 (elementType : Specifier)
  | vector2 (elementType : Specifier) (size : Dimension)
  /-- The list with a name that takes a size, which may be missing. -/
  | sized (name : SizedName) (size : Option Dimension)

inductive Specifiers
  | nil
  | cons (type : Specifier) (types : Specifiers)

end

mutual

/-- `EQUAL` on type specifiers: two objects in them are compared by `EQUAL`. -/
def Specifier.equal : Specifier → Specifier → Bool
  | .atom name1, type2 => match type2 with
    | .atom name2 => name1 = name2
    | _ => false
  | .integer args1, type2 => match type2 with
    | .integer args2 => args1 = args2
    | _ => false
  | .interval name1 args1, type2 => match type2 with
    | .interval name2 args2 => name1 = name2 && args1 = args2
    | _ => false
  | .mod n1, type2 => match type2 with
    | .mod n2 => n1 = n2
    | _ => false
  | .signedByte width1, type2 => match type2 with
    | .signedByte width2 => width1 = width2
    | _ => false
  | .unsignedByte width1, type2 => match type2 with
    | .unsignedByte width2 => width1 = width2
    | _ => false
  | .eql object1, type2 => match type2 with
    | .eql object2 => Types.equal object1 object2
    | _ => false
  | .cons args1, type2 => match type2 with
    | .cons args2 => Specifiers.equal args1 args2
    | _ => false
  | .and types1, type2 => match type2 with
    | .and types2 => Specifiers.equal types1 types2
    | _ => false
  | .or types1, type2 => match type2 with
    | .or types2 => Specifiers.equal types1 types2
    | _ => false
  | .array0 name1, type2 => match type2 with
    | .array0 name2 => name1 = name2
    | _ => false
  | .array1 name1 elementType1, type2 => match type2 with
    | .array1 name2 elementType2 => name1 = name2 && Specifier.equal elementType1 elementType2
    | _ => false
  | .array2 name1 elementType1 dimensions1, type2 => match type2 with
    | .array2 name2 elementType2 dimensions2 =>
      name1 = name2 && Specifier.equal elementType1 elementType2 && dimensions1 = dimensions2
    | _ => false
  | .vector0, type2 => match type2 with
    | .vector0 => true
    | _ => false
  | .vector1 elementType1, type2 => match type2 with
    | .vector1 elementType2 => Specifier.equal elementType1 elementType2
    | _ => false
  | .vector2 elementType1 size1, type2 => match type2 with
    | .vector2 elementType2 size2 => Specifier.equal elementType1 elementType2 && size1 = size2
    | _ => false
  | .sized name1 size1, type2 => match type2 with
    | .sized name2 size2 => name1 = name2 && size1 = size2
    | _ => false

def Specifiers.equal : Specifiers → Specifiers → Bool
  | .nil, types2 => match types2 with
    | .nil => true
    | _ => false
  | .cons type1 types1, types2 => match types2 with
    | .cons type2 types2 => Specifier.equal type1 type2 && Specifiers.equal types1 types2
    | _ => false

end

/-! ## Meanings of the parts -/

/-- The number respects a lower bound. -/
def Bound.Below {α : Type} [LE α] [LT α] : Bound α → α → Prop
  | .star, _ => True
  | .incl low, x => low ≤ x
  | .excl low, x => low < x

/-- The number respects an upper bound. -/
def Bound.Above {α : Type} [LE α] [LT α] : Bound α → α → Prop
  | .star, _ => True
  | .incl high, x => x ≤ high
  | .excl high, x => x < high

/-- The number is between the bounds. -/
def Within {α : Type} [Comparison α] [LE α] [LT α] (args : List (Bound α)) (x : α) : Prop :=
  (bounds args).1.Below x ∧ (bounds args).2.Above x

def Dimension.Match : Dimension → ℕ → Prop
  | .star, _ => True
  | .size n, dimension => dimension = n

def Dimensions.Match : Dimensions → List ℕ → Prop
  | .star, _ => True
  | .rank n, dimensions => dimensions.length = n
  | .list sizes, dimensions => List.Forall₂ Dimension.Match sizes dimensions

def ArrayName.Has : ArrayName → ArrayObject → Prop
  | .array, _ => True
  | .simpleArray, x => x.simple = true

/-- The arrays of some element types with some dimensions. -/
def HasArray (name : ArrayName) (elements : ElementType → Prop) (dimensions : Dimensions)
    (x : Object) : Prop :=
  ∃ array, x = .array array ∧ name.Has array ∧ elements array.elementType ∧
    dimensions.Match array.dimensions

/-- The arrays of which a name that takes a size speaks. -/
def SizedName.arrayName : SizedName → ArrayName
  | simpleVector | simpleBitVector | simpleString | simpleBaseString => .simpleArray
  | bitVector | string | baseString => .array

/-- Their element types. -/
def SizedName.Elements : SizedName → ElementType → Prop
  | simpleVector, type => type = .t
  | bitVector, type => type = .bit
  | simpleBitVector, type => type = .bit
  | string, type => type = .character ∨ type = .nil
  | simpleString, type => type = .character ∨ type = .nil
  | baseString, type => type = .character
  | simpleBaseString, type => type = .character

def SizedName.Has (name : SizedName) (size : Dimension) (x : Object) : Prop :=
  HasArray name.arrayName name.Elements (.list [size]) x

def IsInteger (p : ℤ → Prop) (x : Object) : Prop := ∃ address n, x = .integer address n ∧ p n

def IsRational (p : ℚ → Prop) (x : Object) : Prop :=
  (∃ address n, x = .integer address n ∧ p n) ∨ ∃ address q, x = .ratio address q ∧ p q

def IsFloat (format : FloatFormat → Prop) (p : ℚ → Prop) (x : Object) : Prop :=
  ∃ address fmt negative magnitude, x = .float address fmt negative magnitude ∧ format fmt ∧
    p (floatValue negative magnitude)

/-- The objects of an interval type whose values have a property. -/
def IntervalName.Has : IntervalName → (ℚ → Prop) → Object → Prop
  | rational, p, x => IsRational p x
  | real, p, x => IsRational p x ∨ IsFloat (fun _ => True) p x
  | float, p, x => IsFloat (fun _ => True) p x
  | shortFloat, p, x => IsFloat (· = .single) p x
  | singleFloat, p, x => IsFloat (· = .single) p x
  | doubleFloat, p, x => IsFloat (· = .double) p x
  | longFloat, p, x => IsFloat (· = .double) p x

def IsComplex (x : Object) : Prop :=
  ∃ address realpart imagpart, x = .complex address realpart imagpart

def IsCons (x : Object) : Prop := ∃ address car cdr, x = .cons address car cdr

def Name.Has : Name → Object → Prop
  | t, _ => True
  | nil, _ => False
  | star, _ => True
  | atom, x => ¬ IsCons x
  | number, x => IntervalName.Has .real (fun _ => True) x ∨ IsComplex x
  | real, x => IntervalName.Has .real (fun _ => True) x
  | rational, x => IntervalName.Has .rational (fun _ => True) x
  | integer, x => IsInteger (fun _ => True) x
  | signedByte, x => IsInteger (fun _ => True) x
  | unsignedByte, x => IsInteger (0 ≤ ·) x
  | fixnum, x => IsInteger InFixnumRange x
  | bit, x => IsInteger (fun n => 0 ≤ n ∧ n ≤ 1) x
  | bignum, x => IsInteger (fun n => ¬ InFixnumRange n) x
  | ratio, x => ∃ address q, x = .ratio address q
  | float, x => IntervalName.Has .float (fun _ => True) x
  | shortFloat, x => IntervalName.Has .shortFloat (fun _ => True) x
  | singleFloat, x => IntervalName.Has .singleFloat (fun _ => True) x
  | doubleFloat, x => IntervalName.Has .doubleFloat (fun _ => True) x
  | longFloat, x => IntervalName.Has .longFloat (fun _ => True) x
  | complex, x => IsComplex x
  | sequence, x => x = .null ∨ IsCons x ∨ HasArray .array (fun _ => True) (.list [.star]) x
  | list, x => x = .null ∨ IsCons x
  | cons, x => IsCons x
  | null, x => x = .null
  | symbol, x => x = .null ∨ ∃ keyword number, x = .symbol keyword number
  | boolean, x => x = .null ∨ x = .t
  | keyword, x => ∃ number, x = .symbol true number
  | character, x => ∃ code, x = .character code
  | baseChar, x => ∃ code, x = .character code
  | standardChar, x => ∃ code, x = .character code ∧ (code = 10 ∨ 32 ≤ code ∧ code ≤ 126)
  | extendedChar, _ => False
  | array, x => HasArray .array (fun _ => True) .star x
  | simpleArray, x => HasArray .simpleArray (fun _ => True) .star x
  | vector, x => HasArray .array (fun _ => True) (.list [.star]) x
  | simpleVector, x => SizedName.Has .simpleVector .star x
  | bitVector, x => SizedName.Has .bitVector .star x
  | simpleBitVector, x => SizedName.Has .simpleBitVector .star x
  | string, x => SizedName.Has .string .star x
  | simpleString, x => SizedName.Has .simpleString .star x
  | baseString, x => SizedName.Has .baseString .star x
  | simpleBaseString, x => SizedName.Has .simpleBaseString .star x
  | nilVector, x => HasArray .array (· = .nil) (.list [.star]) x
  | other className, x => ∃ address contents, x = .other address className contents

end Xcl.Types
