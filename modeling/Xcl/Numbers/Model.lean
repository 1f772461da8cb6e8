import Mathlib.Data.Rat.Defs
import Mathlib.Tactic

/-!
# Exact numbers

* `Mpq`, `Rational`, `Number`: fixnums, bignums and ratios, and complex numbers with such parts.

The `mpz_*` and `mpq_*` operations are exact, and a `long` has 64 bits. The operations on complex
numbers call the operations on their parts, which are defined first.
-/

namespace Xcl.Numbers

/-! ## Data -/

def mostPositiveFixnum : ℤ := 2305843009213693951

def mostNegativeFixnum : ℤ := -2305843009213693952

def InFixnumRange (n : ℤ) : Prop := mostNegativeFixnum ≤ n ∧ n ≤ mostPositiveFixnum

instance (n : ℤ) : Decidable (InFixnumRange n) := inferInstanceAs (Decidable (_ ∧ _))

/-- The value of a signed word. -/
def toLong (n : ℤ) : ℤ := n.bmod (2 ^ 64)

/-- The value of an unsigned word. -/
def toUnsignedLong (n : ℤ) : ℤ := n % 2 ^ 64

/-- A numerator and a denominator, not necessarily in lowest terms. -/
structure Mpq where
  num : ℤ
  den : ℕ
  deriving DecidableEq

namespace Mpq

def toRat (q : Mpq) : ℚ := q.num / q.den

def ofRat (r : ℚ) : Mpq := ⟨r.num, r.den⟩

def ofInt (n : ℤ) : Mpq := ⟨n, 1⟩

def canonicalize (q : Mpq) : Mpq := ofRat q.toRat

def add (q r : Mpq) : Mpq := ofRat (q.toRat + r.toRat)

def sub (q r : Mpq) : Mpq := ofRat (q.toRat - r.toRat)

def mul (q r : Mpq) : Mpq := ofRat (q.toRat * r.toRat)

def div (q r : Mpq) : Mpq := ofRat (q.toRat / r.toRat)

def neg (q : Mpq) : Mpq := ⟨-q.num, q.den⟩

end Mpq

inductive Rational
  | fixnum (n : ℤ)
  | bignum (z : ℤ)
  | ratio (q : Mpq)
  deriving DecidableEq

inductive Number
  | real (r : Rational)
  | complex (realpart imagpart : Rational)
  deriving DecidableEq

/-! ## Making results -/

def makeInteger (n : ℤ) : Rational := if InFixnumRange n then .fixnum n else .bignum n

/-- `mpz_fits_slong_p` -/
def FitsLong (z : ℤ) : Prop := -2 ^ 63 ≤ z ∧ z < 2 ^ 63

instance (z : ℤ) : Decidable (FitsLong z) := inferInstanceAs (Decidable (_ ∧ _))

def normalizeZ (z : ℤ) : Rational :=
  if FitsLong z then if InFixnumRange z then .fixnum z else .bignum z else .bignum z

/-- The constructor of a ratio makes it canonical. -/
def makeRatio (q : Mpq) : Rational := .ratio q.canonicalize

def normalizeQ (q : Mpq) : Rational := if q.den = 1 then normalizeZ q.num else makeRatio q

/-! ## Rational numbers -/

namespace Bignum

def addLong (z n : ℤ) : Rational :=
  let result := if 0 ≤ n then z + toUnsignedLong n else z - toUnsignedLong (toLong (-n))
  if FitsLong result then if InFixnumRange result then .fixnum result else .bignum result
  else .bignum result

def subtractLong (z n : ℤ) : Rational :=
  normalizeZ (if 0 ≤ n then z - toUnsignedLong n else z + toUnsignedLong (toLong (-n)))

def negate (z : ℤ) : Rational := normalizeZ (-z)

end Bignum

namespace Ratio

def addLong (q : Mpq) (n : ℤ) : Rational := normalizeQ (q.add (.ofInt n))

def addBignum (q : Mpq) (z : ℤ) : Rational := normalizeQ (q.add (.ofInt z))

def negate (q : Mpq) : Rational := makeRatio q.neg

def numerator (q : Mpq) : Rational := normalizeZ q.num

def denominator (q : Mpq) : Rational := normalizeZ q.den

end Ratio

namespace Rational

def negate : Rational → Rational
  | .fixnum n => if n = mostNegativeFixnum then makeInteger (toLong (-n)) else .fixnum (-n)
  | .bignum z => Bignum.negate z
  | .ratio q => Ratio.negate q

def twoArgPlus : Rational → Rational → Rational
  | .fixnum n₁, .fixnum n₂ => makeInteger (toLong (n₁ + n₂))
  | .fixnum n, .bignum z => Bignum.addLong z n
  | .fixnum n, .ratio q => Ratio.addLong q n
  | .bignum z, .fixnum n => Bignum.addLong z n
  | .bignum z₁, .bignum z₂ => normalizeZ (z₁ + z₂)
  | .bignum z, .ratio q => Ratio.addBignum q z
  | .ratio q, .fixnum n => Ratio.addLong q n
  | .ratio q, .bignum z => Ratio.addBignum q z
  | .ratio q₁, .ratio q₂ => normalizeQ (q₁.add q₂)

def twoArgMinus : Rational → Rational → Rational
  | .fixnum n₁, .fixnum n₂ => makeInteger (toLong (n₁ - n₂))
  | .fixnum n, .bignum z => twoArgPlus (Bignum.negate z) (.fixnum n)
  | .fixnum n, .ratio q => twoArgPlus (Ratio.negate q) (.fixnum n)
  | .bignum z, .fixnum n => Bignum.subtractLong z n
  | .bignum z₁, .bignum z₂ => normalizeZ (z₁ - z₂)
  | .bignum z, .ratio q => twoArgPlus (.bignum z) (Ratio.negate q)
  | .ratio q, .fixnum n => Ratio.addLong q (toLong (-n))
  | .ratio q, .bignum z => twoArgPlus (.ratio q) (Bignum.negate z)
  | .ratio q₁, .ratio q₂ => normalizeQ (q₁.sub q₂)

/-- `INT_MIN` and `INT_MAX` -/
def FitsInt (n : ℤ) : Prop := -2 ^ 31 ≤ n ∧ n < 2 ^ 31

instance (n : ℤ) : Decidable (FitsInt n) := inferInstanceAs (Decidable (_ ∧ _))

def twoArgStar : Rational → Rational → Rational
  | .fixnum n₁, .fixnum n₂ =>
    if FitsInt n₁ ∧ FitsInt n₂ then makeInteger (toLong (n₁ * n₂)) else normalizeZ (n₁ * n₂)
  | .fixnum n, .bignum z => normalizeZ (z * n)
  | .fixnum n, .ratio q => normalizeQ ((Mpq.ofInt n).mul q)
  | .bignum z, .fixnum n => normalizeZ (z * n)
  | .bignum z₁, .bignum z₂ => normalizeZ (z₁ * z₂)
  | .bignum z, .ratio q => normalizeQ (q.mul (.ofInt z))
  | .ratio q, .fixnum n => normalizeQ (q.mul (.ofInt n))
  | .ratio q, .bignum z => normalizeQ (q.mul (.ofInt z))
  | .ratio q₁, .ratio q₂ => normalizeQ (q₁.mul q₂)

/-- The quotient; `none` is the division by zero error. -/
def twoArgSlash (v₁ v₂ : Rational) : Option Rational :=
  if v₂ = .fixnum 0 then none
  else
    match v₁, v₂ with
    | .fixnum n₁, .fixnum n₂ =>
      let q : Mpq :=
        if n₂ < 0 then ⟨toLong (-n₁), (toUnsignedLong (toLong (-n₂))).toNat⟩
        else ⟨n₁, (toUnsignedLong n₂).toNat⟩
      some (normalizeQ q.canonicalize)
    | .fixnum n, .bignum z => some (normalizeQ ((Mpq.ofInt n).div (.ofInt z)))
    | .fixnum n, .ratio q => some (normalizeQ ((Mpq.ofInt n).div q))
    | .bignum z, .fixnum n => some (normalizeQ ((Mpq.ofInt z).div (.ofInt n)))
    | .bignum z₁, .bignum z₂ => some (normalizeQ ((Mpq.ofInt z₁).div (.ofInt z₂)))
    | .bignum z, .ratio q => some (normalizeQ ((Mpq.ofInt z).div q))
    | .ratio q, .fixnum n => some (normalizeQ (q.div (.ofInt n)))
    | .ratio q, .bignum z => some (normalizeQ (q.div (.ofInt z)))
    | .ratio q₁, .ratio q₂ => some (normalizeQ (q₁.div q₂))

end Rational

/-! ## Complex numbers -/

namespace Number

open Rational (twoArgSlash)

def makeComplex (realpart imagpart : Rational) : Number :=
  if imagpart = .fixnum 0 then .real realpart else .complex realpart imagpart

def twoArgPlus : Number → Number → Number
  | .real a, .real b => .real (a.twoArgPlus b)
  | .real (.fixnum n), .complex re im => .complex (re.twoArgPlus (.fixnum n)) im
  | .real a, .complex re im => .complex (a.twoArgPlus re) im
  | .complex re im, .real b => .complex (re.twoArgPlus b) im
  | .complex re₁ im₁, .complex re₂ im₂ =>
    makeComplex (re₁.twoArgPlus re₂) (im₁.twoArgPlus im₂)

/-- A fixnum is subtracted from by adding the negated number; a bignum or a ratio keeps the
imaginary part as it is. -/
def twoArgMinus : Number → Number → Number
  | .real a, .real b => .real (a.twoArgMinus b)
  | .real (.fixnum n), .complex re im =>
    twoArgPlus (.complex re.negate im.negate) (.real (.fixnum n))
  | .real a, .complex re im => .complex (a.twoArgMinus re) im
  | .complex re im, .real b => .complex (re.twoArgMinus b) im
  | .complex re₁ im₁, .complex re₂ im₂ =>
    makeComplex (re₁.twoArgMinus re₂) (im₁.twoArgMinus im₂)

/-- The imaginary part of a product is `(a + b) (c + d) - ac - bd`. -/
def twoArgStar : Number → Number → Number
  | .real a, .real b => .real (a.twoArgStar b)
  | .real a, .complex re im => makeComplex (a.twoArgStar re) (a.twoArgStar im)
  | .complex re im, .real b => makeComplex (re.twoArgStar b) (im.twoArgStar b)
  | .complex a b, .complex c d =>
    let ac := a.twoArgStar c
    let bd := b.twoArgStar d
    makeComplex (ac.twoArgMinus bd)
      ((((a.twoArgPlus b).twoArgStar (c.twoArgPlus d)).twoArgMinus ac).twoArgMinus bd)

/-- The square of the absolute value, the denominator of a quotient. -/
def denominator (re im : Rational) : Rational :=
  (re.twoArgStar re).twoArgPlus (im.twoArgStar im)

def makeQuotient (realpart imagpart : Option Rational) : Option Number := do
  return makeComplex (← realpart) (← imagpart)

def twoArgSlash : Number → Number → Option Number
  | .real a, .real b => (a.twoArgSlash b).map .real
  | .real (.ratio q), .complex re im =>
    let d := denominator re im
    makeQuotient (((Rational.ratio q).twoArgStar re).twoArgSlash d)
      ((((Rational.fixnum 0).twoArgMinus (.ratio q)).twoArgStar im).twoArgSlash d)
  | .real a, .complex re im =>
    let d := denominator re im
    makeQuotient ((a.twoArgStar re).twoArgSlash d)
      (((Rational.fixnum 0).twoArgMinus (a.twoArgStar im)).twoArgSlash d)
  | .complex re im, .real b => makeQuotient (re.twoArgSlash b) (im.twoArgSlash b)
  | .complex a b, .complex c d =>
    let e := denominator c d
    makeQuotient (((a.twoArgStar c).twoArgPlus (b.twoArgStar d)).twoArgSlash e)
      (((b.twoArgStar c).twoArgMinus (a.twoArgStar d)).twoArgSlash e)

end Number

/-! ## Canonical representations -/

/-- A fixnum in the fixnum range, a bignum outside of it, a ratio in lowest terms with a denominator
greater than one. -/
def Rational.Canonical : Rational → Prop
  | .fixnum n => InFixnumRange n
  | .bignum z => ¬InFixnumRange z
  | .ratio q => 1 < q.den ∧ q.num.natAbs.Coprime q.den

/-- A complex number has canonical parts and an imaginary part other than zero. -/
def Number.Canonical : Number → Prop
  | .real r => r.Canonical
  | .complex re im => re.Canonical ∧ im.Canonical ∧ im ≠ .fixnum 0

def Rational.value : Rational → ℚ
  | .fixnum n => n
  | .bignum z => z
  | .ratio q => q.toRat

/-- 1 for a ratio: some functions call themselves with the parts of a ratio, which are integers. -/
def Rational.depth : Rational → ℕ
  | .ratio _ => 1
  | _ => 0

theorem depth_normalizeZ (z : ℤ) : (normalizeZ z).depth = 0 := by
  unfold normalizeZ
  split_ifs <;> rfl

end Xcl.Numbers
