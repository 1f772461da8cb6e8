import Xcl.Lib.IntBits
import Xcl.Numbers.Exact

/-!
# Logical operations on integers

* **`twosComplement_spec`**: all operations work on the infinite two's complement representation.

A fixnum is a word that is shifted by the two bits of its tag. Two fixnums are combined as tagged
words, as words, or as numbers, and a bignum with a fixnum by way of the low bits of the bignum.
-/

namespace Xcl.Numbers

open IntBits

/-! ## Words and multiple precision integers -/

/-- The tagged word of a fixnum. -/
def tag (n : ℤ) : ℤ := toLong (n <<< (2 : ℕ))

/-- The integer of a tagged word. -/
def xlong (value : ℤ) : ℤ := value >>> (2 : ℕ)

def makeFixnum (n : ℤ) : Rational := .fixnum (xlong (tag n))

/-- The low 63 bits, with the sign of the integer. -/
def mpzGetSi (z : ℤ) : ℤ := if 0 ≤ z then z % 2 ^ 63 else -1 - (-z - 1) % 2 ^ 63

/-- `mpz_sizeinbase (z, 2)`. The number of limbs is an `int`, so that the size is a `long`. -/
def mpzSizeinbase2 (z : ℤ) : ℕ := max 1 z.natAbs.size

def makeUnsignedInteger (n : ℤ) : Rational :=
  if n ≤ mostPositiveFixnum then makeFixnum n else .bignum n

inductive Error
  | typeError (datum : Rational)
  | cantRepresent
  deriving DecidableEq

/-- The four cases of two integers; the first argument that is not an integer is the error. -/
def onIntegers (ff fb bf bb : ℤ → ℤ → Rational) : Rational → Rational → Except Error Rational
  | .fixnum n₁, .fixnum n₂ => .ok (ff n₁ n₂)
  | .fixnum n, .bignum z => .ok (fb n z)
  | .fixnum _, v₂ => .error (.typeError v₂)
  | .bignum z, .fixnum n => .ok (bf z n)
  | .bignum z₁, .bignum z₂ => .ok (bb z₁ z₂)
  | .bignum _, v₂ => .error (.typeError v₂)
  | v₁, _ => .error (.typeError v₁)

/-! ## Two arguments -/

def twoArgLogand : Rational → Rational → Except Error Rational :=
  onIntegers (fun n₁ n₂ => .fixnum (xlong ((tag n₁).land (tag n₂))))
    (fun n z =>
      if n = 0 then .fixnum 0
      else if 0 < n then makeFixnum (n.land (mpzGetSi z)) else normalizeZ (n.land z))
    (fun z n =>
      if n = 0 then .fixnum 0
      else if 0 < n then makeFixnum ((mpzGetSi z).land n) else normalizeZ (n.land z))
    (fun z₁ z₂ => normalizeZ (z₁.land z₂))

def logandc1 : Rational → Rational → Except Error Rational :=
  onIntegers (fun n₁ n₂ => makeFixnum (n₁.lnot.land n₂))
    (fun n z => normalizeZ (n.lnot.land z))
    (fun z n => normalizeZ (z.lnot.land n))
    (fun z₁ z₂ => normalizeZ (z₁.lnot.land z₂))

def logandc2 : Rational → Rational → Except Error Rational :=
  onIntegers (fun n₁ n₂ => makeFixnum (n₁.land n₂.lnot))
    (fun n z => normalizeZ (z.lnot.land n))
    (fun z n => normalizeZ (n.lnot.land z))
    (fun z₁ z₂ => normalizeZ (z₂.lnot.land z₁))

def logorc1 : Rational → Rational → Except Error Rational :=
  onIntegers (fun n₁ n₂ => makeFixnum (n₁.lnot.lor n₂))
    (fun n z => normalizeZ (n.lnot.lor z))
    (fun z n => normalizeZ (z.lnot.lor n))
    (fun z₁ z₂ => normalizeZ (z₁.lnot.lor z₂))

def logorc2 : Rational → Rational → Except Error Rational :=
  onIntegers (fun n₁ n₂ => makeFixnum (n₁.lor n₂.lnot))
    (fun n z => normalizeZ (z.lnot.lor n))
    (fun z n => normalizeZ (n.lnot.lor z))
    (fun z₁ z₂ => normalizeZ (z₂.lnot.lor z₁))

/-- With a fixnum that is not negative the result is a bignum without a check of its range. -/
def twoArgLogior : Rational → Rational → Except Error Rational :=
  onIntegers (fun n₁ n₂ => .fixnum (xlong ((tag n₁).lor (tag n₂))))
    (fun n z =>
      if n = 0 then .bignum z else if 0 ≤ n then .bignum (n.lor z) else normalizeZ (n.lor z))
    (fun z n =>
      if n = 0 then .bignum z else if 0 ≤ n then .bignum (n.lor z) else normalizeZ (n.lor z))
    (fun z₁ z₂ => normalizeZ (z₁.lor z₂))

def twoArgLogxor : Rational → Rational → Except Error Rational :=
  onIntegers (fun n₁ n₂ => makeFixnum (n₁.xor n₂))
    (fun n z => normalizeZ (n.xor z))
    (fun z n => normalizeZ (n.xor z))
    (fun z₁ z₂ => normalizeZ (z₁.xor z₂))

def logeqv : Rational → Rational → Except Error Rational :=
  onIntegers (fun n₁ n₂ => makeInteger (n₁.xor n₂).lnot)
    (fun n z => normalizeZ (n.xor z).lnot)
    (fun z n => normalizeZ (n.xor z).lnot)
    (fun z₁ z₂ => normalizeZ (z₁.xor z₂).lnot)

/-! ## Any number of arguments -/

def checkInteger : Rational → Except Error Rational
  | .ratio q => .error (.typeError (.ratio q))
  | v => .ok v

/-- No argument gives the identity, one argument itself, and more than two arguments are combined
from the identity on. -/
def fromIdentity (identity : Rational) (twoArg : Rational → Rational → Except Error Rational) :
    List Rational → Except Error Rational
  | [] => .ok identity
  | [v] => checkInteger v
  | [v₁, v₂] => twoArg v₁ v₂
  | args => args.foldlM twoArg identity

def logandArgs : List Rational → Except Error Rational := fromIdentity (.fixnum (-1)) twoArgLogand

def logiorArgs : List Rational → Except Error Rational := fromIdentity (.fixnum 0) twoArgLogior

def logxorArgs : List Rational → Except Error Rational := fromIdentity (.fixnum 0) twoArgLogxor

/-- More than two arguments are combined from the first two on. -/
def logeqvArgs : List Rational → Except Error Rational
  | [] => .ok (.fixnum (-1))
  | [v] => checkInteger v
  | v₁ :: v₂ :: args => logeqv v₁ v₂ >>= args.foldlM logeqv

/-! ## Length and shifts -/

def lengthLoop (n : ℤ) (count : ℕ) : ℕ :=
  if 0 < n then lengthLoop (n >>> (1 : ℕ)) (count + 1) else count
termination_by n.toNat
decreasing_by
  rw [Int.shiftRight_eq_div_pow]
  omega

def integerLength : Rational → Except Error Rational
  | .fixnum n => .ok (makeFixnum (lengthLoop (if n < 0 then n.lnot else n) 0))
  | .bignum z => .ok (makeInteger (mpzSizeinbase2 (if z < 0 then z.lnot else z)))
  | v => .error (.typeError v)

/-- The shift of a multiple precision integer, to the right with `mpz_fdiv_q_2exp`. -/
def ashZ (z shift : ℤ) : Rational :=
  if 0 ≤ shift then normalizeZ (z * 2 ^ shift.toNat) else normalizeZ (z / 2 ^ (-shift).toNat)

def lowtagBits : ℤ := 3

def bitsPerWord : ℤ := 64

def ashFixnum (n shift : ℤ) : Rational :=
  if 0 < shift then
    if 0 < n ∧ n < 4294967296 ∧ shift ≤ 32 then
      makeUnsignedInteger (toUnsignedLong (toLong (n <<< shift.toNat)))
    else if shift < lowtagBits then makeInteger (toLong (n <<< shift.toNat))
    else ashZ n shift
  else if -(bitsPerWord - lowtagBits) < shift then makeInteger (n >>> (-shift).toNat)
  else if 0 ≤ n then .fixnum 0 else .fixnum (-1)

def ashBignum (z shift : ℤ) : Except Error Rational :=
  if 0 < shift then .error .cantRepresent else .ok (if 0 ≤ z then .fixnum 0 else .fixnum (-1))

def ash (arg₁ arg₂ : Rational) : Except Error Rational :=
  if arg₂ = .fixnum 0 then checkInteger arg₁
  else if arg₁ = .fixnum 0 then (checkInteger arg₂).map fun _ => arg₁
  else
    match arg₁, arg₂ with
    | .fixnum n, .fixnum shift => .ok (ashFixnum n shift)
    | .fixnum n, .bignum shift => ashBignum n shift
    | .fixnum _, v => .error (.typeError v)
    | .bignum z, .fixnum shift => .ok (ashZ z shift)
    | .bignum z, .bignum shift => ashBignum z shift
    | .bignum _, v => .error (.typeError v)
    | v, _ => .error (.typeError v)

/-! ## Tagged words -/

theorem inFixnumRange_iff (n : ℤ) : InFixnumRange n ↔ InWord 61 n := by
  unfold InFixnumRange InWord mostNegativeFixnum mostPositiveFixnum
  omega

theorem tag_eq {n : ℤ} (h : InFixnumRange n) : tag n = 4 * n := by
  have hfits : FitsLong (n * 2 ^ 2) := by
    unfold InFixnumRange mostNegativeFixnum mostPositiveFixnum at h
    unfold FitsLong
    omega
  unfold tag
  rw [Int.shiftLeft_eq, toLong_of_fitsLong hfits]
  ring

theorem xlong_four_mul (n : ℤ) : xlong (4 * n) = n := by
  unfold xlong
  rw [Int.shiftRight_eq_div_pow]
  omega

theorem makeInteger_of_inFixnumRange {n : ℤ} (h : InFixnumRange n) :
    makeInteger n = .fixnum n := if_pos h

theorem makeInteger_of_not_inFixnumRange {n : ℤ} (h : ¬InFixnumRange n) :
    makeInteger n = .bignum n := if_neg h

theorem makeFixnum_eq {n : ℤ} (h : InFixnumRange n) : makeFixnum n = makeInteger n := by
  unfold makeFixnum
  rw [tag_eq h, xlong_four_mul, makeInteger_of_inFixnumRange h]

theorem mpzGetSi_eq_lowBits (z : ℤ) : mpzGetSi z = lowBits 63 z := by
  unfold mpzGetSi
  cases z with
  | ofNat m =>
    have hm : 0 ≤ Int.ofNat m := Int.natCast_nonneg m
    rw [if_pos hm]
    show (m : ℤ) % 2 ^ 63 = ((m % 2 ^ 63 : ℕ) : ℤ)
    omega
  | negSucc m =>
    rw [if_neg (by omega)]
    show -1 - (-Int.negSucc m - 1) % 2 ^ 63 = Int.negSucc (m % 2 ^ 63)
    omega

theorem onIntegers_makeInteger {ff fb bf bb f : ℤ → ℤ → _} (n m : ℤ)
    (hff : InFixnumRange n → InFixnumRange m → ff n m = makeInteger (f n m))
    (hfb : InFixnumRange n → ¬InFixnumRange m → fb n m = makeInteger (f n m))
    (hbf : ¬InFixnumRange n → InFixnumRange m → bf n m = makeInteger (f n m))
    (hbb : ¬InFixnumRange n → ¬InFixnumRange m → bb n m = makeInteger (f n m)) :
    onIntegers ff fb bf bb (makeInteger n) (makeInteger m) = .ok (makeInteger (f n m)) := by
  by_cases hn : InFixnumRange n
  · rw [makeInteger_of_inFixnumRange hn]
    by_cases hm : InFixnumRange m
    · rw [makeInteger_of_inFixnumRange hm]
      exact congrArg Except.ok (hff hn hm)
    · rw [makeInteger_of_not_inFixnumRange hm]
      exact congrArg Except.ok (hfb hn hm)
  · rw [makeInteger_of_not_inFixnumRange hn]
    by_cases hm : InFixnumRange m
    · rw [makeInteger_of_inFixnumRange hm]
      exact congrArg Except.ok (hbf hn hm)
    · rw [makeInteger_of_not_inFixnumRange hm]
      exact congrArg Except.ok (hbb hn hm)

/-! ## Two arguments -/

section
variable {n m : ℤ} (hn : InFixnumRange n) (hm : InFixnumRange m)
include hn hm

theorem inFixnumRange_land : InFixnumRange (n.land m) := by
  rw [inFixnumRange_iff] at hn hm ⊢
  exact land_inWord hn hm

theorem inFixnumRange_lor : InFixnumRange (n.lor m) := by
  rw [inFixnumRange_iff] at hn hm ⊢
  exact lor_inWord hn hm

theorem inFixnumRange_xor : InFixnumRange (n.xor m) := by
  rw [inFixnumRange_iff] at hn hm ⊢
  exact xor_inWord hn hm

end

theorem inFixnumRange_lnot {n : ℤ} (hn : InFixnumRange n) : InFixnumRange n.lnot := by
  rw [inFixnumRange_iff] at hn ⊢
  exact lnot_inWord hn

theorem makeFixnum_land_mpzGetSi {n : ℤ} (hn : InFixnumRange n) (h0 : 0 < n) (z : ℤ) :
    makeFixnum (n.land (mpzGetSi z)) = makeInteger (n.land z) := by
  have hr := hn
  unfold InFixnumRange mostNegativeFixnum mostPositiveFixnum at hr
  have hland : n.land (mpzGetSi z) = n.land z := by
    rw [mpzGetSi_eq_lowBits]
    exact land_lowBits h0.le (by omega) z
  rw [hland]
  apply makeFixnum_eq
  have hle := land_le h0.le z
  have hnonneg := land_nonneg h0.le z
  unfold InFixnumRange mostNegativeFixnum mostPositiveFixnum
  omega

theorem logand_fixnum_bignum {n : ℤ} (hn : InFixnumRange n) (z : ℤ) :
    (if n = 0 then .fixnum 0
      else if 0 < n then makeFixnum (n.land (mpzGetSi z)) else normalizeZ (n.land z))
      = makeInteger (n.land z) := by
  by_cases h0 : n = 0
  · have hzero : n.land z = 0 := by
      have hle := land_le h0.ge z
      have hnonneg := land_nonneg h0.ge z
      omega
    rw [if_pos h0, hzero]
    rfl
  · rw [if_neg h0]
    by_cases hpos : 0 < n
    · rw [if_pos hpos]
      exact makeFixnum_land_mpzGetSi hn hpos z
    · rw [if_neg hpos]
      exact normalizeZ_eq_makeInteger _

theorem logior_fixnum_bignum {n z : ℤ} (hn : InFixnumRange n) (hz : ¬InFixnumRange z) :
    (if n = 0 then .bignum z else if 0 ≤ n then .bignum (n.lor z) else normalizeZ (n.lor z))
      = makeInteger (n.lor z) := by
  by_cases h0 : n = 0
  · rw [if_pos h0, h0, lor_comm, lor_zero, makeInteger_of_not_inFixnumRange hz]
  · rw [if_neg h0]
    by_cases hpos : 0 ≤ n
    · have hlor : ¬InFixnumRange (n.lor z) := by
        rw [inFixnumRange_iff] at hn hz ⊢
        exact fun h => hz (inWord_of_lor hpos hn h)
      rw [if_pos hpos, makeInteger_of_not_inFixnumRange hlor]
    · rw [if_neg hpos]
      exact normalizeZ_eq_makeInteger _

inductive LogicalOp
  | logand
  | logior
  | logxor
  | logandc1
  | logandc2
  | logorc1
  | logorc2
  | logeqv

namespace LogicalOp

def call : LogicalOp → Rational → Rational → Except Error Rational
  | .logand => twoArgLogand
  | .logior => twoArgLogior
  | .logxor => twoArgLogxor
  | .logandc1 => Numbers.logandc1
  | .logandc2 => Numbers.logandc2
  | .logorc1 => Numbers.logorc1
  | .logorc2 => Numbers.logorc2
  | .logeqv => Numbers.logeqv

/-- The boolean function of the operation. -/
def boole : LogicalOp → Bool → Bool → Bool
  | .logand, a, b => a && b
  | .logior, a, b => a || b
  | .logxor, a, b => a ^^ b
  | .logandc1, a, b => !a && b
  | .logandc2, a, b => a && !b
  | .logorc1, a, b => !a || b
  | .logorc2, a, b => a || !b
  | .logeqv, a, b => !(a ^^ b)

def onInt : LogicalOp → ℤ → ℤ → ℤ
  | .logand, n, m => n.land m
  | .logior, n, m => n.lor m
  | .logxor, n, m => n.xor m
  | .logandc1, n, m => n.lnot.land m
  | .logandc2, n, m => n.land m.lnot
  | .logorc1, n, m => n.lnot.lor m
  | .logorc2, n, m => n.lor m.lnot
  | .logeqv, n, m => (n.xor m).lnot

theorem testBit_onInt (op : LogicalOp) (n m : ℤ) (k : ℕ) :
    (op.onInt n m).testBit k = op.boole (n.testBit k) (m.testBit k) := by
  cases op with
  | logand => exact Int.testBit_land n m k
  | logior => exact Int.testBit_lor n m k
  | logxor => exact Int.testBit_lxor n m k
  | logandc1 => rw [onInt, Int.testBit_land, Int.testBit_lnot, boole]
  | logandc2 => rw [onInt, Int.testBit_land, Int.testBit_lnot, boole]
  | logorc1 => rw [onInt, Int.testBit_lor, Int.testBit_lnot, boole]
  | logorc2 => rw [onInt, Int.testBit_lor, Int.testBit_lnot, boole]
  | logeqv => rw [onInt, Int.testBit_lnot, Int.testBit_lxor, boole]

/-- **The operations on two integers**, fixnums or bignums. -/
theorem call_makeInteger (op : LogicalOp) (n m : ℤ) :
    op.call (makeInteger n) (makeInteger m) = .ok (makeInteger (op.onInt n m)) := by
  have hz := normalizeZ_eq_makeInteger
  cases op with
  | logand =>
    apply onIntegers_makeInteger
    · intro hn hm
      rw [tag_eq hn, tag_eq hm, land_four_mul, xlong_four_mul,
        ← makeInteger_of_inFixnumRange (inFixnumRange_land hn hm), onInt]
    · intro hn _
      exact logand_fixnum_bignum hn m
    · intro _ hm
      rw [land_comm (mpzGetSi n) m, logand_fixnum_bignum hm n, land_comm m n, onInt]
    · intro _ _
      exact hz _
  | logior =>
    apply onIntegers_makeInteger
    · intro hn hm
      rw [tag_eq hn, tag_eq hm, lor_four_mul, xlong_four_mul,
        ← makeInteger_of_inFixnumRange (inFixnumRange_lor hn hm), onInt]
    · intro hn hm
      exact logior_fixnum_bignum hn hm
    · intro hn hm
      rw [logior_fixnum_bignum hm hn, lor_comm m n, onInt]
    · intro _ _
      exact hz _
  | logxor =>
    apply onIntegers_makeInteger
    · intro hn hm
      exact makeFixnum_eq (inFixnumRange_xor hn hm)
    · intro _ _
      exact hz _
    · intro _ _
      rw [hz, xor_comm m n, onInt]
    · intro _ _
      exact hz _
  | logandc1 =>
    apply onIntegers_makeInteger
    · intro hn hm
      exact makeFixnum_eq (inFixnumRange_land (inFixnumRange_lnot hn) hm)
    all_goals
      intro _ _
      exact hz _
  | logandc2 =>
    apply onIntegers_makeInteger
    · intro hn hm
      exact makeFixnum_eq (inFixnumRange_land hn (inFixnumRange_lnot hm))
    all_goals
      intro _ _
      rw [hz, land_comm m.lnot n, onInt]
  | logorc1 =>
    apply onIntegers_makeInteger
    · intro hn hm
      exact makeFixnum_eq (inFixnumRange_lor (inFixnumRange_lnot hn) hm)
    all_goals
      intro _ _
      exact hz _
  | logorc2 =>
    apply onIntegers_makeInteger
    · intro hn hm
      exact makeFixnum_eq (inFixnumRange_lor hn (inFixnumRange_lnot hm))
    all_goals
      intro _ _
      rw [hz, lor_comm m.lnot n, onInt]
  | logeqv =>
    apply onIntegers_makeInteger
    · intro _ _
      rfl
    · intro _ _
      exact hz _
    · intro _ _
      rw [hz, xor_comm m n, onInt]
    · intro _ _
      exact hz _

end LogicalOp

/-! ## Any number of arguments -/

theorem checkInteger_makeInteger (n : ℤ) : checkInteger (makeInteger n) = .ok (makeInteger n) := by
  by_cases hn : InFixnumRange n
  · rw [makeInteger_of_inFixnumRange hn]
    rfl
  · rw [makeInteger_of_not_inFixnumRange hn]
    rfl

section
variable {e : ℤ} {twoArg : Rational → Rational → Except Error Rational}
  (h : ∀ n, twoArg (makeInteger e) (makeInteger n) = .ok (makeInteger n))
include h

theorem foldlM_two (n m : ℤ) (ns : List Rational) :
    (makeInteger n :: makeInteger m :: ns).foldlM twoArg (makeInteger e)
      = twoArg (makeInteger n) (makeInteger m) >>= ns.foldlM twoArg := by
  rw [List.foldlM_cons, h]
  show (makeInteger m :: ns).foldlM twoArg (makeInteger n) = _
  rw [List.foldlM_cons]

theorem foldlM_one (n : ℤ) :
    [makeInteger n].foldlM twoArg (makeInteger e) = checkInteger (makeInteger n) := by
  rw [List.foldlM_cons, h, checkInteger_makeInteger]
  rfl

theorem fromIdentity_eq_foldlM (ns : List ℤ) :
    fromIdentity (makeInteger e) twoArg (ns.map makeInteger)
      = (ns.map makeInteger).foldlM twoArg (makeInteger e) := by
  match ns with
  | [] => rfl
  | [n] => exact (foldlM_one h n).symm
  | [n, m] =>
    refine Eq.trans ?_ (foldlM_two h n m []).symm
    exact (bind_pure _).symm
  | _ :: _ :: _ :: _ => rfl

end

/-- The operations with functions of any number of arguments. -/
inductive NaryOp
  | logand
  | logior
  | logxor
  | logeqv

namespace NaryOp

def call : NaryOp → List Rational → Except Error Rational
  | .logand => logandArgs
  | .logior => logiorArgs
  | .logxor => logxorArgs
  | .logeqv => logeqvArgs

def twoArg : NaryOp → LogicalOp
  | .logand => .logand
  | .logior => .logior
  | .logxor => .logxor
  | .logeqv => .logeqv

def identity : NaryOp → ℤ
  | .logand => -1
  | .logior => 0
  | .logxor => 0
  | .logeqv => -1

theorem onInt_identity (op : NaryOp) (n : ℤ) : op.twoArg.onInt op.identity n = n := by
  cases op with
  | logand => exact (land_comm (-1) n).trans (land_neg_one n)
  | logior => exact (lor_comm 0 n).trans (lor_zero n)
  | logxor => exact (xor_comm 0 n).trans (xor_zero n)
  | logeqv => exact lnot_xor_neg_one n

theorem call_identity (op : NaryOp) (n : ℤ) :
    op.twoArg.call (makeInteger op.identity) (makeInteger n) = .ok (makeInteger n) := by
  rw [LogicalOp.call_makeInteger, onInt_identity]

/-- **Any number of arguments** are combined two by two. -/
theorem call_eq_foldlM (op : NaryOp) (ns : List ℤ) :
    op.call (ns.map makeInteger)
      = (ns.map makeInteger).foldlM op.twoArg.call (makeInteger op.identity) := by
  have h := op.call_identity
  cases op with
  | logand => exact fromIdentity_eq_foldlM h ns
  | logior => exact fromIdentity_eq_foldlM h ns
  | logxor => exact fromIdentity_eq_foldlM h ns
  | logeqv =>
    match ns with
    | [] => rfl
    | [n] => exact (foldlM_one h n).symm
    | n :: m :: ns => exact (foldlM_two h n m (ns.map makeInteger)).symm

end NaryOp

/-! ## Length -/

theorem lengthLoop_eq (m count : ℕ) : lengthLoop m count = count + m.size := by
  induction m using Nat.strong_induction_on generalizing count with
  | _ m ih =>
    rw [lengthLoop]
    by_cases hm : 0 < m
    · have hshift : (m : ℤ) >>> (1 : ℕ) = ((m / 2 : ℕ) : ℤ) := by
        rw [Int.shiftRight_eq_div_pow]
        omega
      have hsize : m.size = (m / 2).size + 1 := by
        have hbit : Nat.bit m.bodd (m / 2) = m := by
          rw [← Nat.div2_val]
          exact Nat.bit_bodd_div2 m
        have hs := Nat.size_bit (b := m.bodd) (n := m / 2) (by rw [hbit]; omega)
        rw [hbit] at hs
        exact hs
      rw [if_pos (by exact_mod_cast hm), hshift, ih (m / 2) (by omega), hsize]
      omega
    · have h0 : m = 0 := by omega
      rw [if_neg (by exact_mod_cast hm), h0, Nat.size_zero, Nat.add_zero]

/-- The number of bits without the sign. -/
def bitLength : ℤ → ℕ
  | .ofNat m => m.size
  | .negSucc m => m.size

theorem bitLength_le_iff (n : ℤ) (k : ℕ) : bitLength n ≤ k ↔ InWord k n := by
  cases n with
  | ofNat m => exact Nat.size_le.trans inWord_ofNat.symm
  | negSucc m => exact Nat.size_le.trans inWord_negSucc.symm

theorem exists_magnitude (n : ℤ) :
    ∃ m : ℕ, (if n < 0 then n.lnot else n) = m ∧ bitLength n = m.size := by
  cases n with
  | ofNat m => exact ⟨m, if_neg (Int.natCast_nonneg m).not_gt, rfl⟩
  | negSucc m => exact ⟨m, if_pos (Int.negSucc_lt_zero m), rfl⟩

/-- **The length of an integer.** -/
theorem integerLength_makeInteger (n : ℤ) :
    integerLength (makeInteger n) = .ok (makeInteger (bitLength n)) := by
  obtain ⟨m, hm, hlen⟩ := exists_magnitude n
  have hsize := bitLength_le_iff n 61
  rw [← inFixnumRange_iff] at hsize
  by_cases hn : InFixnumRange n
  · rw [makeInteger_of_inFixnumRange hn]
    have hle : InFixnumRange (bitLength n) := by
      have := hsize.mpr hn
      unfold InFixnumRange mostNegativeFixnum mostPositiveFixnum
      omega
    show Except.ok (makeFixnum (lengthLoop (if n < 0 then n.lnot else n) 0)) = _
    rw [hm, lengthLoop_eq, Nat.zero_add, ← hlen, makeFixnum_eq hle]
  · rw [makeInteger_of_not_inFixnumRange hn]
    have hlt : 61 < bitLength n := by
      rw [← not_le, hsize]
      exact hn
    show Except.ok (makeInteger (mpzSizeinbase2 (if n < 0 then n.lnot else n))) = _
    unfold mpzSizeinbase2
    rw [hm, Int.natAbs_natCast, ← hlen, max_eq_right (by omega)]

/-! ## Shifts -/

theorem floor_shift_of_nonneg (n : ℤ) {s : ℤ} (hs : 0 ≤ s) :
    ⌊(n : ℚ) * 2 ^ s⌋ = n * 2 ^ s.toNat := by
  obtain ⟨k, rfl⟩ := Int.eq_ofNat_of_zero_le hs
  have hcast : (n : ℚ) * 2 ^ (k : ℤ) = ((n * 2 ^ k : ℤ) : ℚ) := by
    rw [zpow_natCast]
    push_cast
    rfl
  rw [hcast, Int.floor_intCast]
  rfl

theorem floor_shift_of_neg (n : ℤ) {s : ℤ} (hs : s < 0) :
    ⌊(n : ℚ) * 2 ^ s⌋ = n / 2 ^ (-s).toNat := by
  obtain ⟨k, hk⟩ := Int.eq_ofNat_of_zero_le (show 0 ≤ -s by omega)
  have hcast : (n : ℚ) * 2 ^ s = (n : ℚ) / ((2 ^ k : ℕ) : ℚ) := by
    rw [show s = -(k : ℤ) by omega, zpow_neg, zpow_natCast, div_eq_mul_inv]
    push_cast
    rfl
  rw [hcast, Rat.floor_intCast_div_natCast, hk]
  push_cast
  rfl

theorem ashZ_eq (z s : ℤ) : ashZ z s = makeInteger ⌊(z : ℚ) * 2 ^ s⌋ := by
  unfold ashZ
  by_cases hs : 0 ≤ s
  · rw [if_pos hs, floor_shift_of_nonneg z hs, normalizeZ_eq_makeInteger]
  · rw [if_neg hs, floor_shift_of_neg z (by omega), normalizeZ_eq_makeInteger]

theorem makeUnsignedInteger_shift {n : ℤ} {k : ℕ} (h0 : 0 < n) (hn : n < 4294967296)
    (hk : k ≤ 32) :
    makeUnsignedInteger (toUnsignedLong (toLong (n <<< k))) = makeInteger (n * 2 ^ k) := by
  have hpow : (2 : ℤ) ^ k ≤ 2 ^ 32 := pow_le_pow_right₀ (by decide) hk
  have hpos : (0 : ℤ) < 2 ^ k := by positivity
  have hprod : 0 ≤ n * 2 ^ k ∧ n * 2 ^ k < 2 ^ 64 := by
    constructor
    · positivity
    · nlinarith
  have hword : toUnsignedLong (toLong (n * 2 ^ k)) = n * 2 ^ k := by
    unfold toUnsignedLong toLong
    rw [show (2 : ℤ) ^ 64 = ((2 ^ 64 : ℕ) : ℤ) by norm_num, Int.bmod_emod]
    exact Int.emod_eq_of_lt hprod.1 hprod.2
  rw [Int.shiftLeft_eq, hword]
  unfold makeUnsignedInteger
  by_cases h : n * 2 ^ k ≤ mostPositiveFixnum
  · have hr : InFixnumRange (n * 2 ^ k) := by
      refine ⟨?_, h⟩
      have := hprod.1
      unfold mostNegativeFixnum
      omega
    rw [if_pos h, makeFixnum_eq hr]
  · rw [if_neg h, makeInteger_of_not_inFixnumRange fun hr => h hr.2]

theorem ashFixnum_eq {n s : ℤ} (hn : InFixnumRange n) (hs : s ≠ 0) :
    ashFixnum n s = makeInteger ⌊(n : ℚ) * 2 ^ s⌋ := by
  have hr := hn
  unfold InFixnumRange mostNegativeFixnum mostPositiveFixnum at hr
  unfold ashFixnum lowtagBits bitsPerWord
  by_cases hpos : 0 < s
  · rw [if_pos hpos]
    by_cases hsmall : 0 < n ∧ n < 4294967296 ∧ s ≤ 32
    · rw [if_pos hsmall, floor_shift_of_nonneg n hpos.le]
      exact makeUnsignedInteger_shift hsmall.1 hsmall.2.1 (by omega)
    · rw [if_neg hsmall]
      by_cases hlow : s < 3
      · have hfits : FitsLong (n * 2 ^ s.toNat) := by
          have hcases : s = 1 ∨ s = 2 := by omega
          unfold FitsLong
          rcases hcases with rfl | rfl
          · show _ ≤ n * 2 ^ 1 ∧ n * 2 ^ 1 < _
            omega
          · show _ ≤ n * 2 ^ 2 ∧ n * 2 ^ 2 < _
            omega
        rw [if_pos hlow, floor_shift_of_nonneg n hpos.le, Int.shiftLeft_eq,
          toLong_of_fitsLong hfits]
      · rw [if_neg hlow]
        exact ashZ_eq n s
  · rw [if_neg hpos, floor_shift_of_neg n (by omega)]
    by_cases hfar : -(64 - 3) < s
    · rw [if_pos hfar, Int.shiftRight_eq_div_pow]
      push_cast
      rfl
    · rw [if_neg hfar]
      -- all bits are shifted out
      have hpow : (2 : ℤ) ^ 61 ≤ 2 ^ (-s).toNat := pow_le_pow_right₀ (by decide) (by omega)
      by_cases h0 : 0 ≤ n
      · rw [if_pos h0, Int.ediv_eq_zero_of_lt h0 (by omega)]
        rfl
      · rw [if_neg h0]
        have hdiv : n / 2 ^ (-s).toNat = -1 :=
          Int.ediv_eq_neg_one_of_neg_of_le (by omega) (by omega)
        rw [hdiv]
        rfl

/-- **Arithmetic shifts** by a fixnum. -/
theorem ash_makeInteger (n : ℤ) {s : ℤ} (hs : InFixnumRange s) :
    ash (makeInteger n) (makeInteger s) = .ok (makeInteger ⌊(n : ℚ) * 2 ^ s⌋) := by
  rw [makeInteger_of_inFixnumRange hs]
  unfold ash
  by_cases h0 : s = 0
  · rw [if_pos (congrArg _ h0), checkInteger_makeInteger, h0, zpow_zero, mul_one,
      Int.floor_intCast]
  · rw [if_neg fun h => h0 (Rational.fixnum.inj h)]
    by_cases hn : InFixnumRange n
    · rw [makeInteger_of_inFixnumRange hn]
      by_cases hn0 : n = 0
      · rw [if_pos (congrArg _ hn0), hn0, Int.cast_zero, zero_mul, Int.floor_zero]
        rfl
      · rw [if_neg fun h => hn0 (Rational.fixnum.inj h)]
        exact congrArg Except.ok (ashFixnum_eq hn h0)
    · rw [makeInteger_of_not_inFixnumRange hn, if_neg (by intro h; cases h)]
      exact congrArg Except.ok (ashZ_eq n s)

/-- **The infinite two's complement representation.** Every bit of the result of an operation is the
boolean function of the bits, any number of arguments are combined two by two, the length is the
least number of bits without the sign, and a shift rounds down. -/
theorem twosComplement_spec :
    (∀ (op : LogicalOp) (n m : ℤ), ∃ r : ℤ,
      op.call (makeInteger n) (makeInteger m) = .ok (makeInteger r) ∧
        ∀ k, r.testBit k = op.boole (n.testBit k) (m.testBit k)) ∧
    (∀ (op : NaryOp) (ns : List ℤ), op.call (ns.map makeInteger)
      = (ns.map makeInteger).foldlM op.twoArg.call (makeInteger op.identity)) ∧
    (∀ n : ℤ, ∃ len : ℕ, integerLength (makeInteger n) = .ok (makeInteger len) ∧
      IsLeast {k : ℕ | -2 ^ k ≤ n ∧ n < 2 ^ k} len) ∧
    (∀ n s : ℤ, InFixnumRange s →
      ash (makeInteger n) (makeInteger s) = .ok (makeInteger ⌊(n : ℚ) * 2 ^ s⌋)) := by
  refine ⟨?_, NaryOp.call_eq_foldlM, ?_, fun n s hs => ash_makeInteger n hs⟩
  · intro op n m
    exact ⟨op.onInt n m, op.call_makeInteger n m, op.testBit_onInt n m⟩
  · intro n
    refine ⟨bitLength n, integerLength_makeInteger n, ?_, ?_⟩
    · exact (bitLength_le_iff n _).mp le_rfl
    · intro k hk
      exact (bitLength_le_iff n k).mpr hk

/-- One is shifted by the length of a fixnum. -/
theorem ash_one : InFixnumRange 61 ∧
    ash (makeInteger 1) (makeInteger 61) = .ok (makeInteger ⌊((1 : ℤ) : ℚ) * 2 ^ (61 : ℤ)⌋) :=
  ⟨by decide, twosComplement_spec.2.2.2 1 61 (by decide)⟩

end Xcl.Numbers
