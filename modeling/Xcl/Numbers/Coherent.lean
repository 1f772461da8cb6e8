import Xcl.Numbers.Compare
import Xcl.Numbers.Exact

/-!
# Comparison is a coherent order

* **`coherent_iff`**: the laws hold unless the set has a fixnum with a float that the fixnum is only
  rounded to, or a ratio with a complex number that is equal to it.
-/

namespace Xcl.Comparison

open Numbers (Rational Mpq Represents)
open Rounding (roundInt Representable)

theorem represents_single (f : SingleFloat) : Represents f.rational f.value :=
  Numbers.represents_normalizeQ f.value

theorem represents_double (d : DoubleFloat) : Represents d.rational d.value :=
  Numbers.represents_normalizeQ d.value

/-! ## Rational numbers compare exactly -/

theorem equalsRational_eq (a b : Rational) : equalsRational a b = true ↔ a = b := by
  cases a <;> cases b <;> simp [equalsRational]

theorem bignum_cases {n z : ℤ} (hn : Numbers.InFixnumRange n) (hz : ¬Numbers.InFixnumRange z) :
    (0 < z ∧ n < z) ∨ (z < 0 ∧ z < n) := by
  unfold Numbers.InFixnumRange Numbers.mostNegativeFixnum Numbers.mostPositiveFixnum at hn hz
  omega

section
variable {a b : Rational} {r s : ℚ} (ha : Represents a r) (hb : Represents b s)
include ha hb

theorem equalsRational_iff : equalsRational a b = true ↔ r = s := by
  rw [equalsRational_eq]
  constructor
  · rintro rfl
    exact ha.2.symm.trans hb.2
  · rintro rfl
    exact ha.unique hb

theorem ltRational_iff : ltRational a b = true ↔ r < s := by
  obtain ⟨hca, rfl⟩ := ha
  obtain ⟨hcb, rfl⟩ := hb
  cases a with
  | fixnum n =>
    cases b with
    | fixnum m => simp [ltRational, Rational.value]
    | bignum z =>
      have := bignum_cases hca hcb
      simp only [ltRational, Rational.value, decide_eq_true_eq, Int.cast_lt]
      omega
    | ratio q => simp [ltRational, Rational.value, Mpq.toRat_ofInt]
  | bignum z =>
    cases b with
    | fixnum m =>
      have := bignum_cases hcb hca
      simp only [ltRational, Rational.value, decide_eq_true_eq, Int.cast_lt]
      omega
    | bignum w => simp [ltRational, Rational.value]
    | ratio q => simp [ltRational, Rational.value, Mpq.toRat_ofInt]
  | ratio q =>
    cases b with
    | fixnum m => simp [ltRational, Rational.value, Mpq.toRat_ofInt]
    | bignum w => simp [ltRational, Rational.value, Mpq.toRat_ofInt]
    | ratio q' => simp [ltRational, Rational.value]

theorem gtRational_iff : gtRational a b = true ↔ s < r := by
  have hswap : gtRational a b = ltRational b a := by
    cases a <;> cases b <;> rfl
  rw [hswap]
  exact ltRational_iff hb ha

theorem leRational_iff : leRational a b = true ↔ r ≤ s := by
  obtain ⟨hca, rfl⟩ := ha
  obtain ⟨hcb, rfl⟩ := hb
  cases a with
  | fixnum n =>
    cases b with
    | fixnum m => simp [leRational, Rational.value]
    | bignum z =>
      have := bignum_cases hca hcb
      simp only [leRational, Rational.value, decide_eq_true_eq, Int.cast_le]
      omega
    | ratio q => simp [leRational, geRatio, Rational.value, Mpq.toRat_ofInt]
  | bignum z =>
    cases b with
    | fixnum m =>
      have := bignum_cases hcb hca
      simp only [leRational, Rational.value, decide_eq_true_eq, Int.cast_le]
      omega
    | bignum w => simp [leRational, Rational.value]
    | ratio q => simp [leRational, geRatio, Rational.value, Mpq.toRat_ofInt]
  | ratio q =>
    cases b with
    | fixnum m => simp [leRational, leRatio, Rational.value, Mpq.toRat_ofInt]
    | bignum w => simp [leRational, leRatio, Rational.value, Mpq.toRat_ofInt]
    | ratio q' => simp [leRational, leRatio, Rational.value]

theorem geRational_iff : geRational a b = true ↔ s ≤ r := by
  have hswap : geRational a b = leRational b a := by
    cases a <;> cases b <;> rfl
  rw [hswap]
  exact leRational_iff hb ha

end

/-! ## Real numbers -/

/-- A fixnum that becomes another number when it is converted to the float. -/
def RoundedTo : RealNumber → RealNumber → Prop
  | .rational (.fixnum n), .single f => longToFloat n = f.value ∧ (n : ℚ) ≠ f.value
  | .rational (.fixnum n), .double d => longToDouble n = d.value ∧ (n : ℚ) ≠ d.value
  | _, _ => False

section
variable {p : ℕ} {f : ℚ} (hp : 0 < p) (hf : Representable p f) {n : ℤ}
  (h : ¬((roundInt p n : ℚ) = f ∧ (n : ℚ) ≠ f))
include hp hf h

theorem roundInt_le_iff : (roundInt p n : ℚ) ≤ f ↔ (n : ℚ) ≤ f := by
  refine ⟨fun hle => ?_, Rounding.roundInt_le hp hf⟩
  by_contra hlt
  have hge := Rounding.le_roundInt hp hf (le_of_not_ge hlt)
  exact h ⟨le_antisymm hle hge, fun heq => hlt heq.le⟩

theorem le_roundInt_iff : f ≤ (roundInt p n : ℚ) ↔ f ≤ (n : ℚ) := by
  refine ⟨fun hge => ?_, Rounding.le_roundInt hp hf⟩
  by_contra hlt
  have hle := Rounding.roundInt_le hp hf (le_of_not_ge hlt)
  exact h ⟨le_antisymm hle hge, fun heq => hlt heq.ge⟩

end

section
variable {x y : RealNumber} (hx : x.Canonical) (hy : y.Canonical)
include hx hy

theorem equalsReal_iff : equalsReal x y = true ↔ x.value = y.value := by
  cases x with
  | rational a =>
    have ha := Numbers.represents_value (x := a) hx
    cases y with
    | rational b => exact equalsRational_iff ha (Numbers.represents_value (x := b) hy)
    | single f => exact equalsRational_iff ha (represents_single f)
    | double d => exact equalsRational_iff ha (represents_double d)
  | single f =>
    cases y with
    | rational b =>
      exact equalsRational_iff (represents_single f) (Numbers.represents_value (x := b) hy)
    | single f' => exact decide_eq_true_iff
    | double d => exact decide_eq_true_iff
  | double d =>
    cases y with
    | rational b =>
      exact equalsRational_iff (represents_double d) (Numbers.represents_value (x := b) hy)
    | single f => exact decide_eq_true_iff
    | double d' => exact decide_eq_true_iff

theorem lt_iff : lt x y = true ↔ x.value < y.value := by
  cases x with
  | rational a =>
    have ha := Numbers.represents_value (x := a) hx
    cases y with
    | rational b => exact ltRational_iff ha (Numbers.represents_value (x := b) hy)
    | single f => exact ltRational_iff ha (represents_single f)
    | double d => exact ltRational_iff ha (represents_double d)
  | single f =>
    cases y with
    | rational b =>
      exact ltRational_iff (represents_single f) (Numbers.represents_value (x := b) hy)
    | single f' => exact decide_eq_true_iff
    | double d => exact decide_eq_true_iff
  | double d =>
    cases y with
    | rational b =>
      exact ltRational_iff (represents_double d) (Numbers.represents_value (x := b) hy)
    | single f => exact decide_eq_true_iff
    | double d' => exact decide_eq_true_iff

theorem gt_iff : gt x y = true ↔ y.value < x.value := by
  cases x with
  | rational a =>
    have ha := Numbers.represents_value (x := a) hx
    cases y with
    | rational b => exact gtRational_iff ha (Numbers.represents_value (x := b) hy)
    | single f => exact gtRational_iff ha (represents_single f)
    | double d => exact gtRational_iff ha (represents_double d)
  | single f =>
    have hf := represents_single f
    cases y with
    | rational b =>
      have hb := Numbers.represents_value (x := b) hy
      cases b with
      | fixnum n => exact gtRational_iff hf hb
      | bignum z => exact gtRational_iff hf hb
      | ratio q => exact ltRational_iff hb hf
    | single f' => exact decide_eq_true_iff
    | double d => exact decide_eq_true_iff
  | double d =>
    have hd := represents_double d
    cases y with
    | rational b =>
      have hb := Numbers.represents_value (x := b) hy
      cases b with
      | fixnum n => exact gtRational_iff hd hb
      | bignum z => exact gtRational_iff hd hb
      | ratio q => exact ltRational_iff hb hd
    | single f => exact decide_eq_true_iff
    | double d' => exact decide_eq_true_iff

/-- **`le` is exact** for numbers that are not rounded to each other. -/
theorem le_iff (hxy : ¬RoundedTo x y) (hyx : ¬RoundedTo y x) :
    le x y = true ↔ x.value ≤ y.value := by
  cases x with
  | rational a =>
    have ha := Numbers.represents_value (x := a) hx
    cases y with
    | rational b => exact leRational_iff ha (Numbers.represents_value (x := b) hy)
    | single f =>
      cases a with
      | fixnum n =>
        exact decide_eq_true_iff.trans (roundInt_le_iff (by decide) f.isFloat.representable hxy)
      | bignum z => exact leRational_iff ha (represents_single f)
      | ratio q => exact leRational_iff ha (represents_single f)
    | double d =>
      cases a with
      | fixnum n =>
        exact decide_eq_true_iff.trans (roundInt_le_iff (by decide) d.isFloat.representable hxy)
      | bignum z => exact leRational_iff ha (represents_double d)
      | ratio q => exact leRational_iff ha (represents_double d)
  | single f =>
    have hf := represents_single f
    cases y with
    | rational b =>
      have hb := Numbers.represents_value (x := b) hy
      cases b with
      | fixnum n =>
        exact decide_eq_true_iff.trans (le_roundInt_iff (by decide) f.isFloat.representable hyx)
      | bignum z => exact leRational_iff hf hb
      | ratio q => exact geRational_iff hb hf
    | single f' => exact decide_eq_true_iff
    | double d => exact decide_eq_true_iff
  | double d =>
    have hd := represents_double d
    cases y with
    | rational b =>
      have hb := Numbers.represents_value (x := b) hy
      cases b with
      | fixnum n =>
        exact decide_eq_true_iff.trans (le_roundInt_iff (by decide) d.isFloat.representable hyx)
      | bignum z => exact leRational_iff hd hb
      | ratio q => exact geRational_iff hb hd
    | single f => exact decide_eq_true_iff
    | double d' => exact decide_eq_true_iff

omit hx hy in
theorem ge_eq_le : ge x y = le y x := by
  have hswap : ∀ a b : Rational, geRational a b = leRational b a := by
    intro a b
    cases a <;> cases b <;> rfl
  cases x with
  | rational a =>
    cases y with
    | rational b => exact hswap a b
    | single f => cases a <;> first | rfl | exact hswap _ _
    | double d => cases a <;> first | rfl | exact hswap _ _
  | single f =>
    cases y with
    | rational b => cases b <;> first | rfl | exact hswap _ _
    | single f' => rfl
    | double d => rfl
  | double d =>
    cases y with
    | rational b => cases b <;> first | rfl | exact hswap _ _
    | single f' => rfl
    | double d' => rfl

/-- **`ge` is exact** for numbers that are not rounded to each other. -/
theorem ge_iff (hxy : ¬RoundedTo x y) (hyx : ¬RoundedTo y x) :
    ge x y = true ↔ y.value ≤ x.value := by
  rw [ge_eq_le]
  exact le_iff hy hx hyx hxy

end

theorem le_of_roundedTo {x y : RealNumber} (h : RoundedTo x y) :
    le x y = true ∧ ge x y = true ∧ x.value ≠ y.value := by
  cases x with
  | rational a =>
    cases a with
    | fixnum n =>
      cases y with
      | rational b => exact h.elim
      | single f => exact ⟨decide_eq_true h.1.le, decide_eq_true h.1.ge, h.2⟩
      | double d => exact ⟨decide_eq_true h.1.le, decide_eq_true h.1.ge, h.2⟩
    | bignum z => exact h.elim
    | ratio q => exact h.elim
  | single f => exact h.elim
  | double d => exact h.elim

/-! ## All numbers -/

/-- Numbers that some predicate takes for something else: a fixnum that is rounded to a float, and a
complex number that is equal to a ratio. -/
def Confused : AnyNumber → AnyNumber → Prop
  | .real (.rational (.ratio q)), .complex re im => re.value = q.toRat ∧ im.value = 0
  | .real x, .real y => RoundedTo x y
  | _, _ => False

theorem canonical_zero : (RealNumber.rational (.fixnum 0)).Canonical :=
  Numbers.represents_zero.1

theorem value_zero : (RealNumber.rational (.fixnum 0)).value = 0 := Numbers.represents_zero.2

theorem equals_complex_real {re im x : RealNumber} (hre : re.Canonical) (him : im.Canonical)
    (hx : x.Canonical) :
    (equalsReal im (.rational (.fixnum 0)) && equalsReal re x) = true
      ↔ re.value = x.value ∧ im.value = 0 := by
  rw [Bool.and_eq_true, equalsReal_iff him canonical_zero, equalsReal_iff hre hx, value_zero,
    and_comm]

/-- **`equals` is exact**, except for a ratio and a complex number. -/
theorem equals_iff {x y : AnyNumber} (hx : x.Canonical) (hy : y.Canonical) (h : ¬Confused x y) :
    equals x y = true ↔ x.value = y.value := by
  cases x with
  | real a =>
    cases y with
    | real b => exact (equalsReal_iff hx hy).trans (by simp [AnyNumber.value])
    | complex re im =>
      have heq : (AnyNumber.real a).value = (AnyNumber.complex re im).value
          ↔ re.value = a.value ∧ im.value = 0 := by
        simp only [AnyNumber.value, Prod.mk.injEq]
        exact and_congr eq_comm eq_comm
      rw [heq]
      match a, h with
      | .rational (.ratio q), h => exact iff_of_false Bool.false_ne_true h
      | .rational (.fixnum n), _ => exact equals_complex_real hy.1 hy.2 hx
      | .rational (.bignum z), _ => exact equals_complex_real hy.1 hy.2 hx
      | .single f, _ => exact equals_complex_real hy.1 hy.2 hx
      | .double d, _ => exact equals_complex_real hy.1 hy.2 hx
  | complex re im =>
    cases y with
    | real b =>
      refine (equals_complex_real hx.1 hx.2 hy).trans ?_
      simp only [AnyNumber.value, Prod.mk.injEq]
    | complex re' im' =>
      show (equalsReal re re' && equalsReal im im') = true ↔ _
      rw [Bool.and_eq_true, equalsReal_iff hx.1 hy.1, equalsReal_iff hx.2 hy.2]
      simp only [AnyNumber.value, Prod.mk.injEq]

/-! ## Any number of arguments -/

theorem noAdjacent_iff {α : Type} (complement : α → α → Bool) (args : List α) :
    noAdjacent complement args = true ↔ args.IsChain fun a b => complement a b = false := by
  induction args with
  | nil => simp [noAdjacent]
  | cons a args ih =>
    cases args with
    | nil => simp [noAdjacent]
    | cons b args =>
      rw [noAdjacent, List.isChain_cons_cons, ← ih]
      cases complement a b <;> simp

theorem compareArgs_iff {predicate complement : RealNumber → RealNumber → Bool}
    {args : List RealNumber} (hne : args ≠ [])
    (h : ∀ a ∈ args, ∀ b ∈ args, complement a b = !predicate a b) :
    compareArgs predicate complement args = some true
      ↔ args.IsChain fun a b => predicate a b = true := by
  match args, hne with
  | [_], _ => simp [compareArgs]
  | [a, b], _ => simp [compareArgs]
  | [a, b, c], _ => simp [compareArgs]
  | a :: b :: c :: d :: args, _ =>
    show some (noAdjacent complement (a :: b :: c :: d :: args)) = some true ↔ _
    rw [Option.some.injEq, noAdjacent_iff]
    apply List.IsChain.iff_of_mem_imp
    intro x y hx hy
    rw [h x hx y hy]
    cases predicate x y <;> simp

theorem isChain_value_iff (x : AnyNumber) (args : List AnyNumber) :
    (x :: args).IsChain (fun a b => a.value = b.value) ↔ ∀ a ∈ args, x.value = a.value := by
  induction args generalizing x with
  | nil => simp
  | cons y args ih =>
    rw [List.isChain_cons_cons, ih, List.forall_mem_cons]
    apply and_congr_right
    intro hxy
    rw [hxy]

theorem equalsArgs_iff {args : List AnyNumber} (hne : args ≠ [])
    (h : ∀ a ∈ args, ∀ b ∈ args, equals a b = true ↔ a.value = b.value) :
    equalsArgs args = some true ↔ args.IsChain fun a b => equals a b = true := by
  match args, hne with
  | [_], _ => simp [equalsArgs]
  | [a, b], _ => simp [equalsArgs]
  | [a, b, c], _ => simp [equalsArgs]
  | x :: b :: c :: d :: args, _ =>
    have hchain := List.IsChain.iff_of_mem_imp (l := x :: b :: c :: d :: args)
      (R := fun a b => equals a b = true) (S := fun a b => a.value = b.value)
      fun a b ha hb => h a ha b hb
    rw [hchain, isChain_value_iff]
    show some ((b :: c :: d :: args).all (equals x)) = some true ↔ _
    rw [Option.some.injEq, List.all_eq_true]
    apply forall₂_congr
    intro a ha
    exact h x List.mem_cons_self a (List.mem_cons_of_mem x ha)

/-! ## The laws of a total order -/

/-- The predicates of any number of arguments, with those of two arguments that they stand for. -/
inductive Predicate
  | lt
  | le
  | gt
  | ge

namespace Predicate

def twoArg : Predicate → RealNumber → RealNumber → Bool
  | .lt => Comparison.lt
  | .le => Comparison.le
  | .gt => Comparison.gt
  | .ge => Comparison.ge

def args : Predicate → List RealNumber → Option Bool
  | .lt => ltArgs
  | .le => leArgs
  | .gt => gtArgs
  | .ge => geArgs

end Predicate

structure Coherent (A : Set AnyNumber) : Prop where
  lt_exact : ∀ x y, .real x ∈ A → .real y ∈ A → (lt x y = true ↔ x.value < y.value)
  equals_exact : ∀ x y, .real x ∈ A → .real y ∈ A →
    (equals (.real x) (.real y) = true ↔ x.value = y.value)
  lt_iff_gt : ∀ x y, .real x ∈ A → .real y ∈ A → (lt x y = true ↔ gt y x = true)
  le_iff : ∀ x y, .real x ∈ A → .real y ∈ A →
    (le x y = true ↔ lt x y = true ∨ equals (.real x) (.real y) = true)
  ge_iff : ∀ x y, .real x ∈ A → .real y ∈ A → (ge x y = true ↔ ¬lt x y = true)
  equals_symm : ∀ x ∈ A, ∀ y ∈ A, (equals x y = true ↔ equals y x = true)
  args_iff : ∀ (p : Predicate) (args : List RealNumber), args ≠ [] →
    (∀ x ∈ args, .real x ∈ A) →
      (p.args args = some true ↔ args.IsChain fun a b => p.twoArg a b = true)
  equalsArgs_iff : ∀ args : List AnyNumber, args ≠ [] → (∀ x ∈ args, x ∈ A) →
    (equalsArgs args = some true ↔ args.IsChain fun a b => equals a b = true)

section
variable {A : Set AnyNumber} (hA : ∀ x ∈ A, x.Canonical)
include hA

theorem coherent_of_not_confused (h : ∀ x ∈ A, ∀ y ∈ A, ¬Confused x y) : Coherent A := by
  have hround : ∀ x y, AnyNumber.real x ∈ A → AnyNumber.real y ∈ A → ¬RoundedTo x y := by
    intro x y hx hy hr
    refine h _ hx _ hy ?_
    cases x with
    | rational a => cases a <;> exact hr
    | single f => exact hr
    | double d => exact hr
  have hlt : ∀ x y, AnyNumber.real x ∈ A → AnyNumber.real y ∈ A → _ := fun x y hx hy =>
    lt_iff (x := x) (y := y) (hA _ hx) (hA _ hy)
  have hgt : ∀ x y, AnyNumber.real x ∈ A → AnyNumber.real y ∈ A → _ := fun x y hx hy =>
    gt_iff (x := x) (y := y) (hA _ hx) (hA _ hy)
  have hle : ∀ x y, AnyNumber.real x ∈ A → AnyNumber.real y ∈ A → _ := fun x y hx hy =>
    le_iff (x := x) (y := y) (hA _ hx) (hA _ hy) (hround x y hx hy) (hround y x hy hx)
  have hge : ∀ x y, AnyNumber.real x ∈ A → AnyNumber.real y ∈ A → _ := fun x y hx hy =>
    ge_iff (x := x) (y := y) (hA _ hx) (hA _ hy) (hround x y hx hy) (hround y x hy hx)
  have heq : ∀ x y, AnyNumber.real x ∈ A → AnyNumber.real y ∈ A → _ := fun x y hx hy =>
    equalsReal_iff (x := x) (y := y) (hA _ hx) (hA _ hy)
  have hequals : ∀ x ∈ A, ∀ y ∈ A, _ := fun x hx y hy =>
    equals_iff (hA x hx) (hA y hy) (h x hx y hy)
  refine ⟨hlt, heq, ?_, ?_, ?_, ?_, ?_, ?_⟩
  · intro x y hx hy
    rw [hlt x y hx hy, hgt y x hy hx]
  · intro x y hx hy
    rw [hle x y hx hy, hlt x y hx hy, le_iff_lt_or_eq]
    exact or_congr_right (heq x y hx hy).symm
  · intro x y hx hy
    rw [hge x y hx hy, hlt x y hx hy, not_lt]
  · intro x hx y hy
    rw [hequals x hx y hy, hequals y hy x hx]
    exact eq_comm
  · intro p args hne hargs
    have hnot : ∀ {a b : Bool} {u v : Prop}, (a = true ↔ u) → (b = true ↔ v) → (u ↔ ¬v) →
        a = !b := by
      intro a b u v ha hb huv
      cases b with
      | false => exact ha.mpr (huv.mpr fun hv => absurd (hb.mpr hv) Bool.false_ne_true)
      | true => exact Bool.eq_false_iff.mpr fun h' => huv.mp (ha.mp h') (hb.mp rfl)
    cases p with
    | lt =>
      exact compareArgs_iff hne fun a ha b hb => hnot (hge a b (hargs a ha) (hargs b hb))
        (hlt a b (hargs a ha) (hargs b hb)) not_lt.symm
    | le =>
      exact compareArgs_iff hne fun a ha b hb => hnot (hgt a b (hargs a ha) (hargs b hb))
        (hle a b (hargs a ha) (hargs b hb)) not_le.symm
    | gt =>
      exact compareArgs_iff hne fun a ha b hb => hnot (hle a b (hargs a ha) (hargs b hb))
        (hgt a b (hargs a ha) (hargs b hb)) not_lt.symm
    | ge =>
      exact compareArgs_iff hne fun a ha b hb => hnot (hlt a b (hargs a ha) (hargs b hb))
        (hge a b (hargs a ha) (hargs b hb)) not_le.symm
  · intro args hne hargs
    exact Comparison.equalsArgs_iff hne fun a ha b hb => hequals a (hargs a ha) b (hargs b hb)

omit hA in
theorem not_roundedTo_of_coherent (h : Coherent A) {x y : RealNumber} (hx : .real x ∈ A)
    (hy : .real y ∈ A) : ¬RoundedTo x y := by
  intro hr
  obtain ⟨hle, hge, hne⟩ := le_of_roundedTo hr
  have hnlt := (h.ge_iff x y hx hy).mp hge
  have heq := ((h.le_iff x y hx hy).mp hle).resolve_left hnlt
  exact hne ((h.equals_exact x y hx hy).mp heq)

theorem not_confused_of_coherent (h : Coherent A) {x y : AnyNumber} (hx : x ∈ A) (hy : y ∈ A) :
    ¬Confused x y := by
  intro hc
  cases x with
  | complex re im => exact hc.elim
  | real a =>
    cases y with
    | real b =>
      refine not_roundedTo_of_coherent h hx hy ?_
      cases a with
      | rational r => cases r <;> exact hc
      | single f => exact hc
      | double d => exact hc
    | complex re im =>
      cases a with
      | single f => exact hc.elim
      | double d => exact hc.elim
      | rational r =>
        cases r with
        | fixnum n => exact hc.elim
        | bignum z => exact hc.elim
        | ratio q =>
          -- equal from the one side only
          have hcy := hA _ hy
          have heq : equals (.complex re im) (.real (.rational (.ratio q))) = true :=
            (equals_complex_real (x := .rational (.ratio q)) hcy.1 hcy.2 (hA _ hx)).mpr hc
          have hsymm := (h.equals_symm _ hy _ hx).mp heq
          exact absurd hsymm Bool.false_ne_true

/-- **Comparison is a coherent order** on a set of numbers exactly when no two of them are
confused. -/
theorem coherent_iff : Coherent A ↔ ∀ x ∈ A, ∀ y ∈ A, ¬Confused x y :=
  ⟨fun h _ hx _ hy => not_confused_of_coherent hA h hx hy, coherent_of_not_confused hA⟩

end

/-- The double `2 ^ 53`. -/
def twoPow53 : DoubleFloat :=
  ⟨9007199254740992, 4503599627370496, 1, by norm_num, by norm_num, by norm_num, by norm_num⟩

/-- Integers and doubles that are exact. -/
theorem coherent_two_pow : Coherent
    {.real (.rational (.fixnum 9007199254740992)), .real (.double twoPow53)} := by
  have hA : ∀ x ∈ ({.real (.rational (.fixnum 9007199254740992)), .real (.double twoPow53)} :
      Set AnyNumber), x.Canonical := by
    rintro x (rfl | rfl)
    · show Numbers.InFixnumRange 9007199254740992
      decide
    · trivial
  refine (coherent_iff hA).mpr ?_
  rintro x (rfl | rfl) y (rfl | rfl) hc
  · exact hc.elim
  · exact hc.2 (by show ((9007199254740992 : ℤ) : ℚ) = 9007199254740992; norm_num)
  · exact hc.elim
  · exact hc.elim

/-- `2 ^ 53 + 1` is less or equal to the double `2 ^ 53`, but neither less nor equal. -/
theorem not_coherent :
    le (.rational (.fixnum 9007199254740993)) (.double twoPow53) = true ∧
      ¬lt (.rational (.fixnum 9007199254740993)) (.double twoPow53) = true ∧
      ¬equals (.real (.rational (.fixnum 9007199254740993))) (.real (.double twoPow53)) = true ∧
      ¬Coherent {x | x.Canonical} := by
  have hx : (RealNumber.rational (.fixnum 9007199254740993)).Canonical :=
    show Numbers.InFixnumRange 9007199254740993 by decide
  have hy : (RealNumber.double twoPow53).Canonical := trivial
  have hvx : (RealNumber.rational (.fixnum 9007199254740993)).value = 9007199254740993 := by
    show ((9007199254740993 : ℤ) : ℚ) = 9007199254740993
    norm_num
  have hvy : (RealNumber.double twoPow53).value = 9007199254740992 := rfl
  have hle : le (.rational (.fixnum 9007199254740993)) (.double twoPow53) = true := by
    have hround : roundInt 53 9007199254740993 = 9007199254740992 := by decide
    show decide (((roundInt 53 9007199254740993 : ℤ) : ℚ) ≤ twoPow53.value) = true
    apply decide_eq_true
    rw [hround, show twoPow53.value = 9007199254740992 from rfl]
    norm_num
  have hlt : ¬lt (.rational (.fixnum 9007199254740993)) (.double twoPow53) = true := by
    rw [lt_iff hx hy, hvx, hvy]
    norm_num
  have heq : ¬equalsReal (.rational (.fixnum 9007199254740993)) (.double twoPow53) = true := by
    rw [equalsReal_iff hx hy, hvx, hvy]
    norm_num
  refine ⟨hle, hlt, heq, fun h => ?_⟩
  exact ((h.le_iff (.rational (.fixnum 9007199254740993)) (.double twoPow53) hx hy).mp hle).elim
    hlt heq

end Xcl.Comparison
