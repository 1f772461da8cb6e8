import Xcl.Lib.Rounding
import Xcl.Numbers.Model

/-!
# Comparing numbers

* `SingleFloat`, `DoubleFloat`: the finite floats, as the rational numbers that they are;
* `RealNumber`, `AnyNumber`: real numbers of the five kinds, and complex numbers with such parts.

A float is compared with a rational number as a rational number, but `le` and `ge` convert a fixnum
to a float.
-/

namespace Xcl.Comparison

open Numbers (Rational Mpq normalizeQ)
open Rounding (roundInt Representable)

/-! ## Numbers -/

/-- A number of `p` bits with an exponent between two bounds. -/
def IsFloat (p : ℕ) (emin emax : ℤ) (f : ℚ) : Prop :=
  ∃ m e : ℤ, |m| < 2 ^ p ∧ emin ≤ e ∧ e ≤ emax ∧ f = m * 2 ^ e

theorem IsFloat.representable {p : ℕ} {emin emax : ℤ} {f : ℚ} (h : IsFloat p emin emax f) :
    Representable p f := by
  obtain ⟨m, e, hm, -, -, hf⟩ := h
  exact ⟨m, e, hm, hf⟩

/-- A finite `float`. -/
structure SingleFloat where
  value : ℚ
  isFloat : IsFloat 24 (-149) 104 value

/-- A finite `double`. -/
structure DoubleFloat where
  value : ℚ
  isFloat : IsFloat 53 (-1074) 971 value

/-- The conversion of a `long` to a `float`. -/
def longToFloat (n : ℤ) : ℚ := roundInt 24 n

/-- The conversion of a `long` to a `double`. -/
def longToDouble (n : ℤ) : ℚ := roundInt 53 n

/-- The conversion by `mpq_set_d` is exact. -/
def SingleFloat.rational (f : SingleFloat) : Rational := normalizeQ (.ofRat f.value)

def DoubleFloat.rational (d : DoubleFloat) : Rational := normalizeQ (.ofRat d.value)

inductive RealNumber
  | rational (r : Rational)
  | single (f : SingleFloat)
  | double (d : DoubleFloat)

inductive AnyNumber
  | real (x : RealNumber)
  | complex (realpart imagpart : RealNumber)

/-! ## Rational numbers -/

def equalsRational : Rational → Rational → Bool
  | .fixnum n₁, .fixnum n₂ => n₁ = n₂
  | .bignum z₁, .bignum z₂ => z₁ = z₂
  | .ratio q₁, .ratio q₂ => q₁ = q₂
  | _, _ => false

def ltRational : Rational → Rational → Bool
  | .fixnum n₁, .fixnum n₂ => n₁ < n₂
  | .fixnum _, .bignum z => 0 < z
  | .fixnum n, .ratio q => (Mpq.ofInt n).toRat < q.toRat
  | .bignum z, .fixnum _ => z < 0
  | .bignum z₁, .bignum z₂ => z₁ < z₂
  | .bignum z, .ratio q => (Mpq.ofInt z).toRat < q.toRat
  | .ratio q, .fixnum n => q.toRat < (Mpq.ofInt n).toRat
  | .ratio q, .bignum z => q.toRat < (Mpq.ofInt z).toRat
  | .ratio q₁, .ratio q₂ => q₁.toRat < q₂.toRat

def gtRational : Rational → Rational → Bool
  | .fixnum n₁, .fixnum n₂ => n₁ > n₂
  | .fixnum _, .bignum z => z < 0
  | .fixnum n, .ratio q => ltRational (.ratio q) (.fixnum n)
  | .bignum z, .fixnum _ => 0 < z
  | .bignum z₁, .bignum z₂ => z₁ > z₂
  | .bignum z, .ratio q => ltRational (.ratio q) (.bignum z)
  | .ratio q, .fixnum n => q.toRat > (Mpq.ofInt n).toRat
  | .ratio q, .bignum z => q.toRat > (Mpq.ofInt z).toRat
  | .ratio q₁, .ratio q₂ => q₁.toRat > q₂.toRat

/-- `le` with a ratio as first argument. -/
def leRatio (q : Mpq) : Rational → Bool
  | .fixnum n => q.toRat ≤ (Mpq.ofInt n).toRat
  | .bignum z => q.toRat ≤ (Mpq.ofInt z).toRat
  | .ratio q₂ => q.toRat ≤ q₂.toRat

/-- `ge` with a ratio as first argument. -/
def geRatio (q : Mpq) : Rational → Bool
  | .fixnum n => q.toRat ≥ (Mpq.ofInt n).toRat
  | .bignum z => q.toRat ≥ (Mpq.ofInt z).toRat
  | .ratio q₂ => q.toRat ≥ q₂.toRat

def leRational : Rational → Rational → Bool
  | .fixnum n₁, .fixnum n₂ => n₁ ≤ n₂
  | .fixnum _, .bignum z => 0 < z
  | .fixnum n, .ratio q => geRatio q (.fixnum n)
  | .bignum z, .fixnum _ => z < 0
  | .bignum z₁, .bignum z₂ => z₁ ≤ z₂
  | .bignum z, .ratio q => geRatio q (.bignum z)
  | .ratio q, y => leRatio q y

def geRational : Rational → Rational → Bool
  | .fixnum n₁, .fixnum n₂ => n₁ ≥ n₂
  | .fixnum _, .bignum z => z < 0
  | .fixnum n, .ratio q => leRatio q (.fixnum n)
  | .bignum z, .fixnum _ => 0 < z
  | .bignum z₁, .bignum z₂ => z₁ ≥ z₂
  | .bignum z, .ratio q => leRatio q (.bignum z)
  | .ratio q, y => geRatio q y

/-! ## Real numbers -/

def equalsReal : RealNumber → RealNumber → Bool
  | .rational a, .rational b => equalsRational a b
  | .rational a, .single f => equalsRational a f.rational
  | .rational a, .double d => equalsRational a d.rational
  | .single f, .rational b => equalsRational f.rational b
  | .single f₁, .single f₂ => f₁.value = f₂.value
  | .single f, .double d => f.value = d.value
  | .double d, .rational b => equalsRational d.rational b
  | .double d, .single f => d.value = f.value
  | .double d₁, .double d₂ => d₁.value = d₂.value

def lt : RealNumber → RealNumber → Bool
  | .rational a, .rational b => ltRational a b
  | .rational a, .single f => ltRational a f.rational
  | .rational a, .double d => ltRational a d.rational
  | .single f, .rational b => ltRational f.rational b
  | .single f₁, .single f₂ => f₁.value < f₂.value
  | .single f, .double d => f.value < d.value
  | .double d, .rational b => ltRational d.rational b
  | .double d, .single f => d.value < f.value
  | .double d₁, .double d₂ => d₁.value < d₂.value

def gt : RealNumber → RealNumber → Bool
  | .rational a, .rational b => gtRational a b
  | .rational a, .single f => gtRational a f.rational
  | .rational a, .double d => gtRational a d.rational
  | .single f, .rational (.ratio q) => lt (.rational (.ratio q)) (.single f)
  | .single f, .rational b => gtRational f.rational b
  | .single f₁, .single f₂ => f₁.value > f₂.value
  | .single f, .double d => f.value > d.value
  | .double d, .rational (.ratio q) => lt (.rational (.ratio q)) (.double d)
  | .double d, .rational b => gtRational d.rational b
  | .double d, .single f => d.value > f.value
  | .double d₁, .double d₂ => d₁.value > d₂.value

def le : RealNumber → RealNumber → Bool
  | .rational a, .rational b => leRational a b
  | .rational (.fixnum n), .single f => longToFloat n ≤ f.value
  | .rational a, .single f => leRational a f.rational
  | .rational (.fixnum n), .double d => longToDouble n ≤ d.value
  | .rational a, .double d => leRational a d.rational
  | .single f, .rational (.fixnum n) => f.value ≤ longToFloat n
  | .single f, .rational (.bignum z) => leRational f.rational (.bignum z)
  | .single f, .rational (.ratio q) => geRational (.ratio q) f.rational
  | .single f₁, .single f₂ => f₁.value ≤ f₂.value
  | .single f, .double d => f.value ≤ d.value
  | .double d, .rational (.fixnum n) => d.value ≤ longToDouble n
  | .double d, .rational (.bignum z) => leRational d.rational (.bignum z)
  | .double d, .rational (.ratio q) => geRational (.ratio q) d.rational
  | .double d, .single f => d.value ≤ f.value
  | .double d₁, .double d₂ => d₁.value ≤ d₂.value

def ge : RealNumber → RealNumber → Bool
  | .rational a, .rational b => geRational a b
  | .rational (.fixnum n), .single f => longToFloat n ≥ f.value
  | .rational a, .single f => geRational a f.rational
  | .rational (.fixnum n), .double d => longToDouble n ≥ d.value
  | .rational a, .double d => geRational a d.rational
  | .single f, .rational (.fixnum n) => f.value ≥ longToFloat n
  | .single f, .rational (.bignum z) => geRational f.rational (.bignum z)
  | .single f, .rational (.ratio q) => leRational (.ratio q) f.rational
  | .single f₁, .single f₂ => f₁.value ≥ f₂.value
  | .single f, .double d => f.value ≥ d.value
  | .double d, .rational (.fixnum n) => d.value ≥ longToDouble n
  | .double d, .rational (.bignum z) => geRational d.rational (.bignum z)
  | .double d, .rational (.ratio q) => leRational (.ratio q) d.rational
  | .double d, .single f => d.value ≥ f.value
  | .double d₁, .double d₂ => d₁.value ≥ d₂.value

/-! ## All numbers -/

/-- A complex number as second argument comes first, except with a ratio. -/
def equals : AnyNumber → AnyNumber → Bool
  | .real a, .real b => equalsReal a b
  | .real (.rational (.ratio _)), .complex _ _ => false
  | .real a, .complex re im => equalsReal im (.rational (.fixnum 0)) && equalsReal re a
  | .complex re₁ im₁, .complex re₂ im₂ => equalsReal re₁ re₂ && equalsReal im₁ im₂
  | .complex re im, .real b => equalsReal im (.rational (.fixnum 0)) && equalsReal re b

/-! ## Any number of arguments -/

/-- The loop over a long argument list stops at the first adjacent pair with the complementary
predicate. -/
def noAdjacent {α : Type} (complement : α → α → Bool) : List α → Bool
  | a :: b :: args => if complement a b then false else noAdjacent complement (b :: args)
  | _ => true

/-- `none` is the error for no argument. -/
def compareArgs (predicate complement : RealNumber → RealNumber → Bool) :
    List RealNumber → Option Bool
  | [] => none
  | [_] => some true
  | [a, b] => some (predicate a b)
  | [a, b, c] => some (predicate a b && predicate b c)
  | args => some (noAdjacent complement args)

def ltArgs : List RealNumber → Option Bool := compareArgs lt ge

def leArgs : List RealNumber → Option Bool := compareArgs le gt

def gtArgs : List RealNumber → Option Bool := compareArgs gt le

def geArgs : List RealNumber → Option Bool := compareArgs ge lt

/-- More than three arguments are all compared with the first. -/
def equalsArgs : List AnyNumber → Option Bool
  | [] => none
  | [_] => some true
  | [a, b] => some (equals a b)
  | [a, b, c] => some (equals a b && equals b c)
  | value :: args => some (args.all (equals value))

/-! ## Values -/

namespace RealNumber

def value : RealNumber → ℚ
  | .rational r => r.value
  | .single f => f.value
  | .double d => d.value

def Canonical : RealNumber → Prop
  | .rational r => r.Canonical
  | .single _ => True
  | .double _ => True

end RealNumber

namespace AnyNumber

/-- The real part and the imaginary part. -/
def value : AnyNumber → ℚ × ℚ
  | .real x => (x.value, 0)
  | .complex re im => (re.value, im.value)

def Canonical : AnyNumber → Prop
  | .real x => x.Canonical
  | .complex re im => re.Canonical ∧ im.Canonical

end AnyNumber

end Xcl.Comparison
