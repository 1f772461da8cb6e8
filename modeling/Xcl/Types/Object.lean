import Xcl.Numbers.Model

/-!
# Objects and their identity

* `ElementType`: the element types that arrays can have;
* `Object`: the objects, those in the heap with their addresses.
-/

namespace Xcl.Types

open Numbers (InFixnumRange)

/-- The results of `upgraded-array-element-type`. -/
inductive ElementType
  | bit
  | ub8
  | ub16
  | ub32
  | character
  | nil
  | t
  deriving DecidableEq, Repr

structure ArrayObject where
  address : ℕ
  simple : Bool
  elementType : ElementType
  dimensions : List ℕ
  contents : List ℕ
  deriving DecidableEq, Repr

namespace ArrayObject

def vectorp (array : ArrayObject) : Bool := array.dimensions.length = 1

def stringp (array : ArrayObject) : Bool :=
  array.vectorp && (array.elementType = .character || array.elementType = .nil)

def bitVectorp (array : ArrayObject) : Bool := array.vectorp && array.elementType = .bit

end ArrayObject

inductive FloatFormat
  | single
  | double
  deriving DecidableEq, Repr

inductive Object
  | integer (address : ℕ) (n : ℤ)
  | ratio (address : ℕ) (q : ℚ)
  /-- A finite float, given by its sign and its absolute value. -/
  | float (address : ℕ) (format : FloatFormat) (negative : Bool) (magnitude : ℚ)
  | complex (address : ℕ) (realpart imagpart : Object)
  | character (code : ℕ)
  | null
  | symbol (keyword : Bool) (number : ℕ)
  | cons (address : ℕ) (car cdr : Object)
  | array (array : ArrayObject)
  /-- An object of another class, which is given by its number. `EQUAL` compares what it holds. -/
  | other (address : ℕ) (className : ℕ) (contents : ℕ)
  deriving DecidableEq, Repr

/-- The symbol `T`. -/
def Object.t : Object := .symbol false 0

def floatValue (negative : Bool) (magnitude : ℚ) : ℚ := if negative then -magnitude else magnitude

def Object.realValue : Object → Option ℚ
  | .integer _ n => some n
  | .ratio _ q => some q
  | .float _ _ negative magnitude => some (floatValue negative magnitude)
  | _ => none

/-- `eq`. Fixnums are immediate. -/
def eq : Object → Object → Bool
  | .integer address1 n, .integer address2 m =>
    n = m && (InFixnumRange n || address1 = address2)
  | x, y => x = y

def eql : Object → Object → Bool
  | .integer _ n, .integer _ m => n = m
  | .ratio _ p, .ratio _ q => p = q
  | .float _ format1 negative1 magnitude1, .float _ format2 negative2 magnitude2 =>
    format1 = format2 && negative1 = negative2 && magnitude1 = magnitude2
  | .complex _ real1 imag1, .complex _ real2 imag2 => eql real1 real2 && eql imag1 imag2
  | x, y => x = y

def equal : Object → Object → Bool
  | .cons _ car1 cdr1, .cons _ car2 cdr2 => equal car1 car2 && equal cdr1 cdr2
  | .array array1, .array array2 =>
    if array1.stringp && array2.stringp || array1.bitVectorp && array2.bitVectorp then
      array1.contents = array2.contents
    else array1 = array2
  | .other _ class1 contents1, .other _ class2 contents2 =>
    class1 = class2 && contents1 = contents2
  | x, y => eql x y

def Object.withoutAddress : Object → Object
  | .integer _ n => .integer 0 n
  | .ratio _ q => .ratio 0 q
  | .float _ format negative magnitude => .float 0 format negative magnitude
  | .complex _ realpart imagpart => .complex 0 realpart.withoutAddress imagpart.withoutAddress
  | x => x

theorem eql_iff {x y : Object} : eql x y = true ↔ x.withoutAddress = y.withoutAddress := by
  induction x generalizing y with
  | complex _ _ _ ihreal ihimag =>
    cases y <;> simp [eql, Object.withoutAddress, ihreal, ihimag]
  | _ => cases y <;> simp [eql, Object.withoutAddress, and_assoc]

theorem eql_symm {x y : Object} (h : eql x y = true) : eql y x = true :=
  eql_iff.mpr (eql_iff.mp h).symm

theorem eql_trans {x y z : Object} (h : eql x y = true) (h' : eql y z = true) :
    eql x z = true :=
  eql_iff.mpr ((eql_iff.mp h).trans (eql_iff.mp h'))

end Xcl.Types
