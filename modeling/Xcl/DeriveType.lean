import Xcl.Lib.IntBits
import Xcl.Types.Interval

/-!
# Derived types of integer expressions

* `Form`, `Form.value`: expressions and their values;
* **`contains_deriveType`**: the value of an expression belongs to its derived type.
-/

namespace Xcl.DeriveType

open Xcl.Types

/-! ## Types -/

/-- A bound of an `INTEGER` type, `none` for `*`. -/
abbrev Limit := Option ℤ

/-- The types that `derive-type` returns for integer expressions. -/
inductive DerivedType
  /-- The list `(INTEGER low high)`. -/
  | integer (low high : Limit)
  | number
  | float
  /-- The keyword `:unknown`. -/
  | unknown
  deriving DecidableEq, Repr

def mostPositiveFixnum : ℤ := 2305843009213693951

def mostNegativeFixnum : ℤ := -2305843009213693952

def fixnump (n : ℤ) : Bool := mostNegativeFixnum ≤ n && n ≤ mostPositiveFixnum

/-- `fixnum-type-p`, with the bounds. -/
def fixnumTypeP : DerivedType → Option (ℤ × ℤ)
  | .integer (some low) (some high) =>
    if fixnump low && fixnump high then some (low, high) else none
  | _ => none

def floatTypeP : DerivedType → Bool
  | .float => true
  | _ => false

/-- `(subtypep type '(INTEGER low high))`. An `INTEGER` type is compared by `sub-interval-p`; the
other types are not subtypes. -/
def subtypepInteger (low high : Limit) : DerivedType → Bool
  | .integer low1 high1 =>
    subIntervalP [.ofLimit low1, .ofLimit high1] [.ofLimit low, .ofLimit high]
  | _ => false

/-- `(subtypep type 'NUMBER)`. -/
def subtypepNumber : DerivedType → Bool
  | .integer low high => subIntervalP [.ofLimit low, .ofLimit high] []
  | .number => true
  | .float => true
  | .unknown => false

/-! ## Handlers -/

/-- The bounds of a type, `*` unless it is an `INTEGER` type. -/
def DerivedType.limits : DerivedType → Limit × Limit
  | .integer low high => (low, high)
  | _ => (none, none)

/-- `derive-type-logand`, from the types of the arguments. -/
def deriveTypeLogand : List DerivedType → DerivedType
  | [] => .integer (some (-1)) (some (-1))
  | [.integer low high] => .integer low high
  | [_] => .integer none none
  | [type1, type2] =>
    if type1 = .unknown ∨ type2 = .unknown then .integer none none
    else
      let (low1, high1) := type1.limits
      let (low2, high2) := type2.limits
      if low1.any (0 ≤ ·) ∧ low2.any (0 ≤ ·) then
        -- `(or high1 high2)` is `high1`, also when that is the symbol `*`
        .integer (some 0) (match high1, high2 with
          | some high1, some high2 => some (min high1 high2)
          | high1, _ => high1)
      else if low1.any (0 ≤ ·) then .integer (some 0) high1
      else if low2.any (0 ≤ ·) then .integer (some 0) high2
      else .integer none none
  | _ => .integer none none

def integerLength (n : ℤ) : ℕ := if 0 ≤ n then n.toNat.size else (-n - 1).toNat.size

/-- `derive-type-logior/logxor` of two arguments. -/
def deriveTypeLogior2 (type1 type2 : DerivedType) : DerivedType :=
  if type1 = .unknown ∨ type2 = .unknown then .integer none none
  else if subtypepInteger (some 0) none type1 ∧ subtypepInteger (some 0) none type2 then
    match type1, type2 with
    | .integer _ (some high1), .integer _ (some high2) =>
      .integer (some 0) (some (2 ^ integerLength (max high1 high2) - 1))
    | _, _ => .integer (some 0) none
  else if (fixnumTypeP type1).isSome ∧ (fixnumTypeP type2).isSome then
    .integer (some mostNegativeFixnum) (some mostPositiveFixnum)
  else .integer none none

/-- `derive-type-logior/logxor`. With more than two arguments the form is
`(op arg (op args...))`. -/
def deriveTypeLogior : List DerivedType → DerivedType
  | [] => .integer (some 0) (some 0)
  | [type] => type
  | type :: types => deriveTypeLogior2 type (deriveTypeLogior types)

/-- `derive-type-two-arg-+`. -/
def deriveTypeTwoArgPlus (type1 type2 : DerivedType) : DerivedType :=
  match fixnumTypeP type1, fixnumTypeP type2 with
  | some (low1, high1), some (low2, high2) =>
    .integer (some (low1 + low2)) (some (high1 + high2))
  | _, _ =>
    match type1, type2 with
    | .integer low1 high1, .integer low2 high2 =>
      match low1, high1, low2, high2 with
      | some low1, some high1, some low2, some high2 =>
        .integer (some (low1 + low2)) (some (high1 + high2))
      | some low1, _, some low2, _ => .integer (some (low1 + low2)) none
      | _, _, _, _ => .integer none none
    | type1, type2 => if floatTypeP type1 ∧ floatTypeP type2 then .float else .number

/-- `derive-type--` with one argument. -/
def deriveTypeMinus (type1 : DerivedType) : DerivedType :=
  if subtypepInteger (some (mostNegativeFixnum + 1)) (some mostPositiveFixnum) type1 then
    .integer (some mostNegativeFixnum) (some mostPositiveFixnum)
  else .number

/-- `derive-type-two-arg--`. -/
def deriveTypeTwoArgMinus : DerivedType → DerivedType → DerivedType
  | .integer low1 high1, .integer low2 high2 =>
    match low1, high1, low2, high2 with
    | some low1, some high1, some low2, some high2 =>
      .integer (some (low1 - high2)) (some (high1 - low2))
    | _, _, _, _ => .integer none none
  | _, _ => .number

/-- `derive-type-two-arg-*`. -/
def deriveTypeTwoArgTimes (type1 type2 : DerivedType) : DerivedType :=
  if floatTypeP type1 ∧ floatTypeP type2 then .float
  else
    match type1, type2 with
    | .integer (some low1) (some high1), .integer (some low2) (some high2) =>
      if low1 ≥ 0 ∧ low2 ≥ 0 then .integer (some (low1 * low2)) (some (high1 * high2))
      else .integer none none
    | .integer _ _, .integer _ _ => .integer none none
    | _, _ => .number

/-- `derive-type-if`, from the types of the two branches. -/
def deriveTypeIf (type1 type2 : DerivedType) : DerivedType :=
  if type1 = .unknown ∨ type2 = .unknown then .unknown
  else if type1 = type2 then type1
  else
    match type1, type2 with
    | .integer low1 high1, .integer low2 high2 =>
      match low1, high1, low2, high2 with
      | some low1, some high1, some low2, some high2 =>
        .integer (some (min low1 low2)) (some (max high1 high2))
      | _, _, _, _ => .integer none none
    | type1, type2 => if subtypepNumber type1 ∧ subtypepNumber type2 then .number else .unknown

/-! ## Forms -/

/-- Integer expressions over variables `V`; the tests of conditionals are of a type `C`. -/
inductive Form (V C : Type)
  | constant (n : ℤ)
  | variable (v : V)
  | twoArgPlus (form1 form2 : Form V C)
  | twoArgMinus (form1 form2 : Form V C)
  | twoArgTimes (form1 form2 : Form V C)
  | minus (form1 : Form V C)
  | logand (args : List (Form V C))
  | logior (args : List (Form V C))
  | logxor (args : List (Form V C))
  | if (test : C) (form1 form2 : Form V C)

variable {V C : Type}

/-- The value of an expression. -/
def Form.value (assignment : V → ℤ) (tests : C → Bool) : Form V C → ℤ
  | .constant n => n
  | .variable v => assignment v
  | .twoArgPlus form1 form2 => form1.value assignment tests + form2.value assignment tests
  | .twoArgMinus form1 form2 => form1.value assignment tests - form2.value assignment tests
  | .twoArgTimes form1 form2 => form1.value assignment tests * form2.value assignment tests
  | .minus form1 => -form1.value assignment tests
  | .logand args => (args.map (Form.value assignment tests)).foldr Int.land (-1)
  | .logior args => (args.map (Form.value assignment tests)).foldr Int.lor 0
  | .logxor args => (args.map (Form.value assignment tests)).foldr Int.xor 0
  | .if test form1 form2 =>
    if tests test then form1.value assignment tests else form2.value assignment tests

/-- `derive-type`. The types of the variables are given. -/
def deriveType (types : V → Limit × Limit) : Form V C → DerivedType
  | .constant n => .integer (some n) (some n)
  | .variable v => .integer (types v).1 (types v).2
  | .twoArgPlus form1 form2 =>
    deriveTypeTwoArgPlus (deriveType types form1) (deriveType types form2)
  | .twoArgMinus form1 form2 =>
    deriveTypeTwoArgMinus (deriveType types form1) (deriveType types form2)
  | .twoArgTimes form1 form2 =>
    deriveTypeTwoArgTimes (deriveType types form1) (deriveType types form2)
  | .minus form1 => deriveTypeMinus (deriveType types form1)
  | .logand args => deriveTypeLogand (args.map (deriveType types))
  | .logior args => deriveTypeLogior (args.map (deriveType types))
  | .logxor args => deriveTypeLogior (args.map (deriveType types))
  | .if _ form1 form2 => deriveTypeIf (deriveType types form1) (deriveType types form2)

/-! ## Soundness -/

/-- The integers of a type. The keyword `:unknown` is not a type. -/
def DerivedType.Contains : DerivedType → ℤ → Prop
  | .integer low high, n => (∀ a ∈ low, a ≤ n) ∧ ∀ b ∈ high, n ≤ b
  | .number, _ => True
  | .float, _ => False
  | .unknown, _ => False

open DerivedType (Contains)

variable {type1 type2 : DerivedType} {n m : ℤ}

@[simp] theorem contains_integer {low high : Limit} :
    Contains (.integer low high) n ↔ (∀ a ∈ low, a ≤ n) ∧ ∀ b ∈ high, n ≤ b := Iff.rfl

@[simp] theorem contains_number : Contains .number n := trivial

theorem contains_integer_none : Contains (.integer none none) n := by
  simp

theorem not_contains_float : ¬ Contains .float n := id

theorem not_contains_unknown : ¬ Contains .unknown n := id

/-- A type that contains an integer is a subtype of `NUMBER`. -/
theorem subtypepNumber_of_contains (hn : Contains type1 n) : subtypepNumber type1 = true := by
  cases type1 with
  | integer low high => exact subIntervalP_nil [Bound.ofLimit low, Bound.ofLimit high]
  | number => rfl
  | float => exact absurd hn not_contains_float
  | unknown => exact absurd hn not_contains_unknown

theorem contains_of_subtypepInteger {low high : Limit}
    (h : subtypepInteger low high type1 = true) (hn : Contains type1 n) :
    Contains (.integer low high) n := by
  cases type1 with
  | integer low1 high1 =>
    obtain ⟨hlow, hhigh⟩ := subIntervalP_int.mp h
    refine ⟨fun b hb => ?_, fun b hb => ?_⟩
    · obtain ⟨a, ha, hba⟩ := hlow b hb
      exact hba.trans (hn.1 a ha)
    · obtain ⟨a, ha, hab⟩ := hhigh b hb
      exact (hn.2 a ha).trans hab
  | _ => cases h

theorem of_fixnumTypeP {low high : ℤ} (h : fixnumTypeP type1 = some (low, high)) :
    type1 = .integer (some low) (some high) ∧ fixnump low = true ∧ fixnump high = true := by
  unfold fixnumTypeP at h
  split at h
  · split_ifs at h with hfix
    cases h
    exact ⟨rfl, Bool.and_eq_true_iff.mp hfix⟩
  · cases h

theorem fixnump_iff : fixnump n = true ↔ -2 ^ 61 ≤ n ∧ n ≤ 2 ^ 61 - 1 := by
  rw [fixnump, Bool.and_eq_true, decide_eq_true_eq, decide_eq_true_eq]
  norm_num [mostNegativeFixnum, mostPositiveFixnum]

theorem inWord_of_fixnumTypeP (h : (fixnumTypeP type1).isSome = true) (hn : Contains type1 n) :
    IntBits.InWord 61 n := by
  obtain ⟨⟨low, high⟩, h⟩ := Option.isSome_iff_exists.mp h
  obtain ⟨rfl, hlow, hhigh⟩ := of_fixnumTypeP h
  have h₁ := hn.1 low rfl
  have h₂ := hn.2 high rfl
  rw [fixnump_iff] at hlow hhigh
  unfold IntBits.InWord
  omega

theorem contains_of_inWord (hn : IntBits.InWord 61 n) :
    Contains (.integer (some mostNegativeFixnum) (some mostPositiveFixnum)) n := by
  unfold IntBits.InWord at hn
  simp only [contains_integer, Option.mem_some_iff, forall_eq', mostNegativeFixnum,
    mostPositiveFixnum]
  omega

/-- A conjunction with a non-negative operand lies between zero and this operand. -/
theorem contains_land_left {low high : Limit} (hlow : low.any (0 ≤ ·) = true)
    (hn : Contains (.integer low high) n) (m : ℤ) :
    Contains (.integer (some 0) high) (Int.land n m) := by
  have hn₀ : 0 ≤ n := by
    obtain ⟨a, ha, hpos⟩ := (Option.any_eq_true _ _).mp hlow
    exact (of_decide_eq_true hpos).trans (hn.1 a ha)
  refine ⟨fun a ha => ?_, fun b hb => (IntBits.land_le hn₀ m).trans (hn.2 b hb)⟩
  cases ha
  exact IntBits.land_nonneg hn₀ m

theorem contains_land_right {low high : Limit} (hlow : low.any (0 ≤ ·) = true)
    (n : ℤ) (hm : Contains (.integer low high) m) :
    Contains (.integer (some 0) high) (Int.land n m) := by
  rw [IntBits.land_comm]
  exact contains_land_left hlow hm n

theorem contains_limits (hn : Contains type1 n) :
    Contains (.integer type1.limits.1 type1.limits.2) n := by
  cases type1 with
  | integer low high => exact hn
  | _ => simp [DerivedType.limits]

theorem contains_logand2 (hn : Contains type1 n) (hm : Contains type2 m) :
    Contains (deriveTypeLogand [type1, type2]) (Int.land n m) := by
  have hn' := contains_limits hn
  have hm' := contains_limits hm
  simp only [deriveTypeLogand]
  split_ifs with hunknown hboth h₁ h₂
  · simp
  · have hleft := contains_land_left hboth.1 hn' m
    have hright := contains_land_right hboth.2 n hm'
    split
    next high1 high2 heq₁ heq₂ =>
      rw [heq₁] at hleft
      rw [heq₂] at hright
      simp only [contains_integer, Option.mem_some_iff, forall_eq'] at *
      omega
    next => exact hleft
  · exact contains_land_left h₁ hn' m
  · exact contains_land_right h₂ n hm'
  · simp

theorem lt_two_pow_integerLength (hn : 0 ≤ n) : n < 2 ^ integerLength n := by
  unfold integerLength
  rw [if_pos hn]
  have h : (n.toNat : ℤ) < ((2 ^ n.toNat.size : ℕ) : ℤ) := by exact_mod_cast n.toNat.lt_size_self
  rw [Int.toNat_of_nonneg hn] at h
  exact_mod_cast h

/-- The union, if non-negative operands and fixnums are closed under the operation. -/
theorem contains_logior2 {op : ℤ → ℤ → ℤ}
    (hnonneg : ∀ {a b : ℤ} {k : ℕ}, 0 ≤ a → 0 ≤ b → a < 2 ^ k → b < 2 ^ k →
      0 ≤ op a b ∧ op a b < 2 ^ k)
    (hword : ∀ {k : ℕ} {a b : ℤ}, IntBits.InWord k a → IntBits.InWord k b →
      IntBits.InWord k (op a b))
    (hn : Contains type1 n) (hm : Contains type2 m) :
    Contains (deriveTypeLogior2 type1 type2) (op n m) := by
  unfold deriveTypeLogior2
  split_ifs with hunknown hunsigned hfixnum
  · simp
  · have hn₀ := contains_of_subtypepInteger hunsigned.1 hn
    have hm₀ := contains_of_subtypepInteger hunsigned.2 hm
    simp only [contains_integer, Option.mem_some_iff, forall_eq', Option.not_mem_none,
      false_implies, implies_true, and_true] at hn₀ hm₀
    split
    next _ high1 _ high2 =>
      have hn₁ : n ≤ max high1 high2 := (hn.2 high1 rfl).trans (le_max_left _ _)
      have hm₁ : m ≤ max high1 high2 := (hm.2 high2 rfl).trans (le_max_right _ _)
      have hlt := lt_two_pow_integerLength (hn₀.trans hn₁)
      have hop := hnonneg hn₀ hm₀ (hn₁.trans_lt hlt) (hm₁.trans_lt hlt)
      simp only [contains_integer, Option.mem_some_iff, forall_eq']
      omega
    next =>
      have hlt := lt_two_pow_integerLength (hn₀.trans (le_max_left n m))
      have hop := hnonneg hn₀ hm₀ ((le_max_left n m).trans_lt hlt)
        ((le_max_right n m).trans_lt hlt)
      simpa using hop.1
  · exact contains_of_inWord
      (hword (inWord_of_fixnumTypeP hfixnum.1 hn) (inWord_of_fixnumTypeP hfixnum.2 hm))
  · simp

theorem contains_plus (hn : Contains type1 n) (hm : Contains type2 m) :
    Contains (deriveTypeTwoArgPlus type1 type2) (n + m) := by
  unfold deriveTypeTwoArgPlus
  split
  next low1 high1 low2 high2 h₁ h₂ =>
    obtain ⟨rfl, -, -⟩ := of_fixnumTypeP h₁
    obtain ⟨rfl, -, -⟩ := of_fixnumTypeP h₂
    simp only [contains_integer, Option.mem_some_iff, forall_eq'] at *
    omega
  next =>
    split
    · split
      all_goals simp at *
      all_goals omega
    · split_ifs with h
      · cases type1 <;> first | exact absurd hn not_contains_float | cases h.1
      · exact contains_number

theorem contains_minus (hn : Contains type1 n) : Contains (deriveTypeMinus type1) (-n) := by
  unfold deriveTypeMinus
  split_ifs with h
  · have := contains_of_subtypepInteger h hn
    simp only [contains_integer, Option.mem_some_iff, forall_eq'] at *
    simp only [mostNegativeFixnum, mostPositiveFixnum] at *
    omega
  · exact contains_number

theorem contains_twoArgMinus (hn : Contains type1 n) (hm : Contains type2 m) :
    Contains (deriveTypeTwoArgMinus type1 type2) (n - m) := by
  unfold deriveTypeTwoArgMinus
  split
  · split
    · simp only [contains_integer, Option.mem_some_iff, forall_eq'] at *
      omega
    · simp
  · exact contains_number

theorem contains_times (hn : Contains type1 n) (hm : Contains type2 m) :
    Contains (deriveTypeTwoArgTimes type1 type2) (n * m) := by
  unfold deriveTypeTwoArgTimes
  split_ifs with h
  · cases type1 <;> first | exact absurd hn not_contains_float | cases h.1
  · split
    · split_ifs with hpos
      · simp only [contains_integer, Option.mem_some_iff, forall_eq'] at *
        obtain ⟨h₁, h₂⟩ := hn
        obtain ⟨h₃, h₄⟩ := hm
        refine ⟨mul_le_mul h₁ h₃ hpos.2 (hpos.1.trans h₁), ?_⟩
        exact mul_le_mul h₂ h₄ (hpos.2.trans h₃) (hpos.1.trans (h₁.trans h₂))
      · simp
    · simp
    · exact contains_number

/-- The value of a conditional is that of one of its branches. -/
theorem contains_if {k : ℤ} (hn : Contains type1 n) (hm : Contains type2 m)
    (hk : k = n ∨ k = m) : Contains (deriveTypeIf type1 type2) k := by
  unfold deriveTypeIf
  split_ifs with hunknown heq
  · rcases hunknown with rfl | rfl
    · exact absurd hn not_contains_unknown
    · exact absurd hm not_contains_unknown
  · subst heq
    rcases hk with rfl | rfl
    · exact hn
    · exact hm
  · split
    · split
      · simp only [contains_integer, Option.mem_some_iff, forall_eq'] at *
        omega
      · exact contains_integer_none
    · rw [if_pos ⟨subtypepNumber_of_contains hn, subtypepNumber_of_contains hm⟩]
      exact contains_number

theorem contains_logand {α : Type} {type : α → DerivedType} {value : α → ℤ} {args : List α}
    (h : ∀ arg ∈ args, Contains (type arg) (value arg)) :
    Contains (deriveTypeLogand (args.map type)) ((args.map value).foldr Int.land (-1)) := by
  match args, h with
  | [], _ => simp [deriveTypeLogand]
  | [arg], h =>
    have harg := h arg (List.mem_singleton_self arg)
    simp only [List.map_cons, List.map_nil, List.foldr_cons, List.foldr_nil,
      IntBits.land_neg_one]
    cases htype : type arg with
    | integer low high =>
      rw [htype] at harg
      exact harg
    | _ => exact contains_integer_none
  | [arg1, arg2], h =>
    simp only [List.map_cons, List.map_nil, List.foldr_cons, List.foldr_nil,
      IntBits.land_neg_one]
    exact contains_logand2 (h arg1 (by simp)) (h arg2 (by simp))
  | _ :: _ :: _ :: _, _ => simp [deriveTypeLogand]

/-- The union of any number of operands, by recursion over them. -/
theorem contains_logior {op : ℤ → ℤ → ℤ} (hzero : ∀ a, op a 0 = a)
    (hnonneg : ∀ {a b : ℤ} {k : ℕ}, 0 ≤ a → 0 ≤ b → a < 2 ^ k → b < 2 ^ k →
      0 ≤ op a b ∧ op a b < 2 ^ k)
    (hword : ∀ {k : ℕ} {a b : ℤ}, IntBits.InWord k a → IntBits.InWord k b →
      IntBits.InWord k (op a b))
    {α : Type} {type : α → DerivedType} {value : α → ℤ} {args : List α}
    (h : ∀ arg ∈ args, Contains (type arg) (value arg)) :
    Contains (deriveTypeLogior (args.map type)) ((args.map value).foldr op 0) := by
  induction args with
  | nil => simp [deriveTypeLogior]
  | cons arg args ih =>
    have harg := h arg List.mem_cons_self
    have hargs := ih fun arg' hmem => h arg' (List.mem_cons_of_mem arg hmem)
    cases args with
    | nil => simpa [deriveTypeLogior, hzero] using harg
    | cons arg' args => exact contains_logior2 hnonneg hword harg hargs

/-- **The value of an expression belongs to its derived type**, if the values of the variables
belong to their types. -/
theorem contains_deriveType {types : V → Limit × Limit} {assignment : V → ℤ}
    (h : ∀ v, Contains (.integer (types v).1 (types v).2) (assignment v)) (tests : C → Bool)
    (form : Form V C) : Contains (deriveType types form) (form.value assignment tests) := by
  match form with
  | .constant n => simp [deriveType, Form.value]
  | .variable v =>
    simpa only [deriveType, Form.value] using h v
  | .twoArgPlus form1 form2 =>
    simpa only [deriveType, Form.value] using
      contains_plus (contains_deriveType h tests form1) (contains_deriveType h tests form2)
  | .twoArgMinus form1 form2 =>
    simpa only [deriveType, Form.value] using
      contains_twoArgMinus (contains_deriveType h tests form1) (contains_deriveType h tests form2)
  | .twoArgTimes form1 form2 =>
    simpa only [deriveType, Form.value] using
      contains_times (contains_deriveType h tests form1) (contains_deriveType h tests form2)
  | .minus form1 =>
    simpa only [deriveType, Form.value] using contains_minus (contains_deriveType h tests form1)
  | .logand args =>
    simpa only [deriveType, Form.value] using
      contains_logand fun arg _ => contains_deriveType h tests arg
  | .logior args =>
    simpa only [deriveType, Form.value] using
      contains_logior IntBits.lor_zero IntBits.lor_lt_two_pow IntBits.lor_inWord
        fun arg _ => contains_deriveType h tests arg
  | .logxor args =>
    simpa only [deriveType, Form.value] using
      contains_logior IntBits.xor_zero IntBits.xor_lt_two_pow IntBits.xor_inWord
        fun arg _ => contains_deriveType h tests arg
  | .if test form1 form2 =>
    simp only [deriveType, Form.value]
    apply contains_if (contains_deriveType h tests form1) (contains_deriveType h tests form2)
    split_ifs
    · exact .inl rfl
    · exact .inr rfl

/-- `(logior (logand x 255) (two-arg-* y 3))` with `y` from 0 to 9. -/
def sampleForm : Form Bool Empty :=
  .logior [.logand [.variable true, .constant 255], .twoArgTimes (.variable false) (.constant 3)]

/-- The types of `x` and `y`. -/
def sampleTypes : Bool → Limit × Limit
  | true => (none, none)
  | false => (some 0, some 9)

theorem contains_deriveType_sampleForm :
    deriveType sampleTypes sampleForm = .integer (some 0) (some 255) ∧
      Contains (deriveType sampleTypes sampleForm)
        (sampleForm.value (fun v => if v then -1000 else 7) fun _ => true) := by
  refine ⟨?_, contains_deriveType (fun v => ?_) _ _⟩
  · simp only [sampleForm, deriveType, List.map_cons, List.map_nil]
    decide
  · cases v <;> simp [sampleTypes]

end Xcl.DeriveType
