import Xcl.Numbers.Model
import Xcl.SymbolHashTable.Model

/-!
# `equal` and `hash`

* `Sequence`: strings and bit vectors, simple or not;
* `Real`, `Obj`: the objects, those in the heap with their addresses, so that `first == second` is
  equality of terms.
-/

namespace Xcl.Equality

open Numbers (Mpq InFixnumRange)

abbrev Word := BitVec 64

def mostPositiveFixnum : Word := 2305843009213693951

/-! ## Strings and bit vectors -/

section Sequences

variable {α : Type}

inductive Elements (α : Type)
  | owned (data : List α)
  | displaced (array : List α) (offset : ℕ)
  deriving DecidableEq

/-- There are `n` elements. -/
def Elements.Covers (n : ℕ) : Elements α → Prop
  | .owned data => n ≤ data.length
  | .displaced array offset => ∀ i < n, i + offset < array.length

def Elements.get [Inhabited α] (i : ℕ) : Elements α → α
  | .owned data => data.getD i default
  | .displaced array offset => array.getD (i + offset) default

/-- A `String` or a `BitVector`. -/
structure FillVector (α : Type) where
  capacity : ℕ
  fillPointer : Option ℕ
  elements : Elements α
  fillPointer_le : ∀ f ∈ fillPointer, f ≤ capacity
  covers : elements.Covers capacity
  deriving DecidableEq

/-- A `SimpleString` or a `String`, a `SimpleBitVector` or a `BitVector`. -/
inductive Sequence (α : Type)
  | simple (data : List α)
  | vector (v : FillVector α)
  deriving DecidableEq

namespace Sequence

def capacity : Sequence α → ℕ
  | .simple data => data.length
  | .vector v => v.capacity

def length : Sequence α → ℕ
  | .simple data => data.length
  | .vector v => v.fillPointer.getD v.capacity

/-- `fast_char_at` and `get_bit` -/
def get [Inhabited α] (s : Sequence α) (i : ℕ) : α :=
  match s with
  | .simple data => data.getD i default
  | .vector v => v.elements.get i

/-- The active elements. -/
def active [Inhabited α] (s : Sequence α) : List α := (List.range s.length).map s.get

end Sequence

end Sequences

abbrev Text := Sequence (BitVec 8)

abbrev Bits := Sequence Bool

/-- `SimpleString::equal` and `String::equal`. The capacity of a simple string is its length. -/
def Text.equal (s t : Text) : Bool :=
  s.length == t.length && (List.range s.length).all fun i => s.get i == t.get i

/-- `AbstractBitVector::equal` -/
def Bits.equal (v w : Bits) : Bool :=
  v.capacity == w.length && (List.range v.capacity).all fun i => v.get i == w.get i

/-- `SimpleString::hash` and `String::hash` -/
def Text.hash (s : Text) : Word := BitVec.ofNat 64 (SymbolHashTable.hash s.active)

/-- `AbstractBitVector::hash`. Only the first 64 bits are considered. -/
def Bits.hash (v : Bits) : Word :=
  (List.range (min v.length 64)).foldl
    (fun hashcode i => hashcode * 31 + if v.get i then 1 else 0) 1 &&& mostPositiveFixnum

/-! ## Numbers -/

section Floats

variable {w : ℕ}

/-- The bits of a float without its sign. -/
def magnitude (bits : BitVec w) : BitVec w := bits <<< 1 >>> 1

/-- The magnitudes above that of infinity are no numbers. -/
def isNaN (infinity bits : BitVec w) : Bool := infinity.ult (magnitude bits)

/-- `f == g`, where no float is equal to something that is no number, and the zeros are equal. -/
def floatEq (infinity f g : BitVec w) : Bool :=
  !isNaN infinity f && !isNaN infinity g && (f == g || magnitude f == 0 && magnitude g == 0)

/-- `SingleFloat::eql` and `equal`, `DoubleFloat::eql` and `equal`: the zeros are told apart by
their signs. -/
def floatEql (infinity this f : BitVec w) : Bool :=
  floatEq infinity f this && (magnitude f != 0 || f.msb == this.msb)

end Floats

def singleInfinity : BitVec 32 := 0x7f800000

def doubleInfinity : BitVec 64 := 0x7ff0000000000000

inductive Real
  | fixnum (n : ℤ)
  | bignum (address : ℕ) (z : ℤ)
  | ratio (address : ℕ) (q : Mpq)
  | single (address : ℕ) (bits : BitVec 32)
  | double (address : ℕ) (bits : BitVec 64)
  deriving DecidableEq

/-- The methods `eql` and `equal` of the numbers agree. -/
def Real.eql (x y : Real) : Bool :=
  x == y ||
    match x, y with
    | .bignum _ z, .bignum _ z' => z == z'
    | .ratio _ q, .ratio _ q' => q == q'
    | .single _ f, .single _ g => floatEql singleInfinity f g
    | .double _ f, .double _ g => floatEql doubleInfinity f g
    | _, _ => false

def mix (x y : Word) : Word :=
  let xy := x * 3 + y
  mostPositiveFixnum &&& (441516657 ^^^ xy ^^^ xy.sshiftRight 5)

def hashFixnum (n : ℤ) : Word := BitVec.ofInt 64 n &&& mostPositiveFixnum

/-- `Bignum::hash`. `mpz_get_ui` gives the lowest word of the absolute value. -/
def hashBignum (z : ℤ) : Word := mix (BitVec.ofInt 64 z.sign) (BitVec.ofNat 64 z.natAbs)

/-- The hash code of `normalize(z)`. -/
def hashInteger (z : ℤ) : Word := if InFixnumRange z then hashFixnum z else hashBignum z

/-- The methods `hash` of the numbers. `bits`, `high_bits` and `low_bits` are of type `int`. -/
def Real.hash : Real → Word
  | .fixnum n => hashFixnum n
  | .bignum _ z => hashBignum z
  | .ratio _ q => mix (hashInteger q.num) (hashInteger q.den)
  | .single _ f =>
    if floatEq singleInfinity f 0 then 0 else f.signExtend 64 &&& mostPositiveFixnum
  | .double _ d =>
    if floatEq doubleInfinity d 0 then 0
    else ((d.extractLsb' 32 32).signExtend 64 ^^^ (d.extractLsb' 0 32).signExtend 64) &&&
      mostPositiveFixnum

/-! ## Objects -/

inductive Obj
  | nil
  | symbol (address : ℕ) (name : SymbolHashTable.Name)
  | character (c : BitVec 8)
  | real (x : Real)
  | complex (address : ℕ) (realpart imagpart : Real)
  | cons (address : ℕ) (car cdr : Obj)
  | string (address : ℕ) (s : Text)
  | bitVector (address : ℕ) (v : Bits)
  | pathname (address : ℕ) (host device directory name type : Obj)
  deriving DecidableEq

/-- `equal`. A pathname ignores its version component. -/
def equal (first second : Obj) : Bool :=
  first == second ||
    match first, second with
    | .cons _ car cdr, .cons _ car' cdr' => equal car car' && equal cdr cdr'
    | .real x, .real y => x.eql y
    | .complex _ re im, .complex _ re' im' => re.eql re' && im.eql im'
    | .string _ s, .string _ t => s.equal t
    | .bitVector _ v, .bitVector _ w => v.equal w
    | .pathname _ host device directory name type,
      .pathname _ host' device' directory' name' type' =>
      equal host host' && equal device device' && equal directory directory' &&
        equal name name' && equal type type'
    | _, _ => false

theorem equal_self (x : Obj) : equal x x = true := by
  unfold equal
  rw [beq_self_eq_true, Bool.true_or]

/-- `compute_hash`, which is `hash` where the object is no cons. -/
def computeHash : Obj → ℕ → Word
  | .nil, _ => 0x12345678
  | .symbol _ name, _ => BitVec.ofNat 64 (SymbolHashTable.hash name)
  | .character c, _ => c.setWidth 64
  | .real x, _ => x.hash
  | .complex _ re im, _ => re.hash ^^^ im.hash
  | .cons _ car cdr, depth + 1 => computeHash car depth ^^^ computeHash cdr depth
  | .cons _ _ _, 0 => 261835505
  | .string _ s, _ => s.hash
  | .bitVector _ v, _ => v.hash
  | .pathname _ host device directory name type, _ =>
    (computeHash host 4 ^^^ computeHash device 4 ^^^ computeHash directory 4 ^^^
      computeHash name 4 ^^^ computeHash type 4) &&& mostPositiveFixnum

def hash (value : Obj) : Word := computeHash value 4

end Xcl.Equality
