import Xcl.Numbers.Compare

/-!
# Division with rounding

* `Thread`, `Kernel`: the multiple values of a thread, and what a function of the kernel does with
  them;
* `tdivQr`, `fdivQr`, `cdivQr`: the divisions of integers of GMP.
-/

namespace Xcl.Division

open Numbers (Rational Mpq toLong makeInteger normalizeZ Bignum.negate Ratio.negate
  Ratio.numerator Ratio.denominator)
open Comparison (equalsRational ltRational gtRational)

/-! ## Multiple values -/

inductive Divider
  | twoArgSlash | truncate2 | floor2 | ceiling2 | rem | mod
  deriving DecidableEq, Repr

/-- The condition that `signal_lisp_error` is called with. -/
structure DivisionByZero where
  operation : Divider
  number : Rational
  divisor : Rational
  deriving DecidableEq

/-- `_values_length` and `_values`. -/
structure Thread where
  valuesLength : ℤ
  values : ℕ → Rational

namespace Thread

/-- `set_values` with two values. -/
def setValues (t : Thread) (v₁ v₂ : Rational) : Thread where
  valuesLength := 2
  values := Function.update (Function.update t.values 0 v₁) 1 v₂

def setValuesLength (t : Thread) (n : ℤ) : Thread := { t with valuesLength := n }

def nthValue (t : Thread) (i : ℕ) : Rational := t.values i

def clearValues (t : Thread) : Thread := t.setValuesLength (-1)

end Thread

/-- A function of the kernel returns a value or signals an error. -/
abbrev Kernel (α : Type) := ExceptT DivisionByZero (StateM Thread) α

namespace Kernel

def signal {α : Type} (operation : Divider) (number divisor : Rational) : Kernel α :=
  throw ⟨operation, number, divisor⟩

/-- `return thread->set_values(v1, v2)` -/
def returnValues (v₁ v₂ : Rational) : Kernel Rational := do
  modify fun t => t.setValues v₁ v₂
  return v₁

def nthValue (i : ℕ) : Kernel Rational := do
  return (← get).nthValue i

def setValuesLength (n : ℤ) : Kernel Unit := modify fun t => t.setValuesLength n

def clearValues : Kernel Unit := modify Thread.clearValues

end Kernel

open Kernel (returnValues)

/-- `SYS_two_arg_slash` -/
def twoArgSlash (v₁ v₂ : Rational) : Kernel Rational :=
  match v₁.twoArgSlash v₂ with
  | some v => return v
  | none => Kernel.signal .twoArgSlash v₁ v₂

/-! ## Integers -/

/-- `mpz_tdiv_qr` -/
def tdivQr (n d : ℤ) : ℤ × ℤ := (n.tdiv d, n.tmod d)

/-- `mpz_fdiv_qr` -/
def fdivQr (n d : ℤ) : ℤ × ℤ := (n.fdiv d, n.fmod d)

/-- `mpz_cdiv_qr` -/
def cdivQr (n d : ℤ) : ℤ × ℤ := (-(-n).fdiv d, -(-n).fmod d)

def longAbs (x : ℤ) : ℤ := if x ≥ 0 then x else toLong (-x)

def sameSignP (x y : ℤ) : Bool := x = y ∨ (x > 0 ∧ y > 0) ∨ (x < 0 ∧ y < 0)

/-- The fixnum case of `SYS_truncate_2`. -/
def truncateLongs (n d : ℤ) : ℤ × ℤ :=
  let q := (longAbs n).tdiv (longAbs d)
  let r := (longAbs n).tmod (longAbs d)
  let r := if n < 0 then toLong (-r) else r
  let q := if !sameSignP n d then toLong (-q) else q
  (q, r)

/-- The fixnum case of `SYS_floor_2`. -/
def floorLongs (x y : ℤ) : ℤ × ℤ :=
  let q := (longAbs x).tdiv (longAbs y)
  let r := (longAbs x).tmod (longAbs y)
  let (q, r) :=
    if !sameSignP x y then
      let (q, r) := if r ≠ 0 then (toLong (q + 1), toLong (r - longAbs y)) else (q, r)
      (toLong (-q), r)
    else (q, r)
  let r := if x < 0 then toLong (-r) else r
  (q, r)

/-- The fixnum case of `SYS_ceiling_2`. -/
def ceilingLongs (n d : ℤ) : ℤ × ℤ :=
  let q := (longAbs n).tdiv (longAbs d)
  let r := (longAbs n).tmod (longAbs d)
  let (q, r) :=
    if sameSignP n d && r ≠ 0 then (toLong (q + 1), toLong (r - longAbs d)) else (q, r)
  let r := if n < 0 then toLong (-r) else r
  let q := if !sameSignP n d then toLong (-q) else q
  (q, r)

/-! ## Rational numbers -/

/-- What is different in the functions for the three roundings. `bignums` says that there is a case
for two bignums. -/
structure Rounding where
  operation : Divider
  longs : ℤ → ℤ → ℤ × ℤ
  qr : ℤ → ℤ → ℤ × ℤ
  bignums : Bool

/-- The function with one argument. -/
def Rounding.divide1 (rounding : Rounding) : Rational → Kernel Rational
  | .fixnum n => returnValues (.fixnum n) (.fixnum 0)
  | .bignum z => returnValues (.bignum z) (.fixnum 0)
  | .ratio q => do
    let (quotient, remainder) := rounding.qr q.num q.den
    let value₂ ← twoArgSlash (normalizeZ remainder) (Ratio.denominator q)
    returnValues (normalizeZ quotient) value₂

/-- The two results of a division of integers by `mpz_*div_qr`. -/
def Rounding.returnQr (rounding : Rounding) (n d : ℤ) : Kernel Rational :=
  let (quotient, remainder) := rounding.qr n d
  returnValues (normalizeZ quotient) (normalizeZ remainder)

/-- The quotient is rounded, and what is left is multiplied by the divisor. -/
def Rounding.divideReals (rounding : Rounding) (number divisor : Rational) : Kernel Rational := do
  let quotient ← twoArgSlash number divisor
  let value₁ ← rounding.divide1 quotient
  let value₂ ← Kernel.nthValue 1
  let value₂ := if value₂ ≠ .fixnum 0 then value₂.twoArgStar divisor else value₂
  returnValues value₁ value₂

/-- The function with two arguments. -/
def Rounding.divide2 (rounding : Rounding) : Rational → Rational → Kernel Rational
  | .fixnum n, .fixnum d =>
    if d = 0 then Kernel.signal rounding.operation (.fixnum n) (.fixnum d)
    else
      let (q, r) := rounding.longs n d
      returnValues (makeInteger q) (makeInteger r)
  | .fixnum n, .ratio r₂ => do
    let quotient ← rounding.divide2 ((Rational.fixnum n).twoArgStar (Ratio.denominator r₂))
      (Ratio.numerator r₂)
    Kernel.setValuesLength (-1)
    let remainder := (Rational.fixnum n).twoArgMinus (quotient.twoArgStar (.ratio r₂))
    returnValues quotient remainder
  | .bignum z, .fixnum d =>
    if d = 0 then Kernel.signal rounding.operation (.bignum z) (.fixnum d)
    else rounding.returnQr z d
  | .bignum z₁, .bignum z₂ =>
    if rounding.bignums then rounding.returnQr z₁ z₂
    else rounding.divideReals (.bignum z₁) (.bignum z₂)
  | number, divisor => rounding.divideReals number divisor
termination_by _ divisor => divisor.depth
decreasing_by exact (Numbers.depth_normalizeZ r₂.num).trans_lt Nat.one_pos

def truncation : Rounding := ⟨.truncate2, truncateLongs, tdivQr, false⟩

def flooring : Rounding := ⟨.floor2, floorLongs, fdivQr, true⟩

def ceiling : Rounding := ⟨.ceiling2, ceilingLongs, cdivQr, true⟩

/-- `SYS_truncate_1` -/
def truncate1 : Rational → Kernel Rational := truncation.divide1

/-- `SYS_truncate_2` -/
def truncate2 : Rational → Rational → Kernel Rational := truncation.divide2

/-- `SYS_floor_1` -/
def floor1 : Rational → Kernel Rational := flooring.divide1

/-- `SYS_floor_2` -/
def floor2 : Rational → Rational → Kernel Rational := flooring.divide2

/-- `SYS_ceiling_1` -/
def ceiling1 : Rational → Kernel Rational := ceiling.divide1

/-- `SYS_ceiling_2` -/
def ceiling2 : Rational → Rational → Kernel Rational := ceiling.divide2

/-! ## Remainders -/

/-- The fixnum case of `CL_rem`. -/
def remLongs (n d : ℤ) : ℤ :=
  let r := (longAbs n).tmod (longAbs d)
  if n < 0 then toLong (-r) else r

/-- The fixnum case of `CL_mod`. -/
def modLongs (n d : ℤ) : ℤ :=
  let r := (longAbs n).tmod (longAbs d)
  let r := if !sameSignP n d && r ≠ 0 then toLong (r - longAbs d) else r
  if n < 0 then toLong (-r) else r

def secondValue (division : Kernel Rational) : Kernel Rational := do
  let _ ← division
  let value ← Kernel.nthValue 1
  Kernel.clearValues
  return value

/-- `CL_rem` -/
def rem : Rational → Rational → Kernel Rational
  | .fixnum n, .fixnum d =>
    if d = 0 then Kernel.signal .rem (.fixnum n) (.fixnum d) else return .fixnum (remLongs n d)
  | number, divisor => secondValue (truncate2 number divisor)

/-- `CL_mod` -/
def mod : Rational → Rational → Kernel Rational
  | .fixnum n, .fixnum d =>
    if d = 0 then Kernel.signal .mod (.fixnum n) (.fixnum d) else return .fixnum (modLongs n d)
  | number, divisor => secondValue (floor2 number divisor)

/-! ## `round` -/

def minusp : Rational → Bool
  | .fixnum n => n < 0
  | .bignum z => z < 0
  | .ratio q => q.num < 0

/-- `CL_abs` -/
def abs : Rational → Rational
  | .fixnum n => if n < 0 then makeInteger (toLong (-n)) else .fixnum n
  | .bignum z => if z < 0 then Bignum.negate z else .bignum z
  | .ratio q => if q.num < 0 then Ratio.negate q else .ratio q

/-- `CL_oddp`; the argument is always an integer here. -/
def oddp : Rational → Bool
  | .fixnum n => n % 2 ≠ 0
  | .bignum z => z % 2 ≠ 0
  | .ratio _ => false

/-- `round`. A rational number is `zerop` only when it is the fixnum zero. -/
def round (number divisor : Rational) : Kernel Rational := do
  let tru ← truncate2 number divisor
  let rem ← Kernel.nthValue 1
  if rem = .fixnum 0 then returnValues tru rem
  else
    let thresh ← twoArgSlash (abs divisor) (.fixnum 2)
    let minusThresh := thresh.negate
    if gtRational rem thresh ||
        (equalsRational rem thresh && oddp tru) then
      if minusp divisor then
        returnValues (tru.twoArgMinus (.fixnum 1)) (rem.twoArgPlus divisor)
      else returnValues (tru.twoArgPlus (.fixnum 1)) (rem.twoArgMinus divisor)
    else if ltRational rem minusThresh ||
        (equalsRational rem minusThresh && oddp tru) then
      if minusp divisor then
        returnValues (tru.twoArgPlus (.fixnum 1)) (rem.twoArgMinus divisor)
      else returnValues (tru.twoArgMinus (.fixnum 1)) (rem.twoArgPlus divisor)
    else returnValues tru rem

end Xcl.Division
