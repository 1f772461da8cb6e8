import Xcl.Types.Subtypep
import Xcl.Types.Table

/-!
# `subtypep` on intervals of real numbers

* `RealType`: the interval types over `INTEGER`, `RATIONAL` and `REAL`;
* **`rational_of_percentSubtypep_no`**: when `subtypep` answers no, a rational number shows it.
-/

namespace Xcl.Types

inductive RealName
  | integer | rational | real
  deriving DecidableEq, Repr

namespace RealName

def name : RealName → Name
  | integer => .integer
  | rational => .rational
  | real => .real

/-- The names up to which the bounds of a type are compared. -/
def upTo : RealName → RealName → Bool
  | integer, _ => true
  | rational, integer => false
  | rational, _ => true
  | real, name2 => name2 = real

end RealName

inductive RealType
  | name (name : RealName)
  | integer (args : List (Bound ℤ))
  | rational (args : List (Bound ℚ))
  | real (args : List (Bound ℚ))

namespace RealType

def specifier : RealType → Specifier
  | name realName => .atom realName.name
  | integer args => .integer args
  | rational args => .interval .rational args
  | real args => .interval .real args

def head : RealType → RealName
  | name realName => realName
  | integer _ => .integer
  | rational _ => .rational
  | real _ => .real

def limits : RealType → Bound ℚ × Bound ℚ
  | name _ => (.star, .star)
  | integer args => ((inclusiveLow (bounds args).1).toRat, (inclusiveHigh (bounds args).2).toRat)
  | rational args => bounds args
  | real args => bounds args

def answer (a b : RealType) : Answer :=
  ⟨a.head.upTo b.head && subIntervalP [a.limits.1, a.limits.2] [b.limits.1, b.limits.2], true⟩

end RealType

def Object.ofRational (q : ℚ) : Object := if q.den = 1 then .integer 0 q.num else .ratio 0 q

variable {up : Upgrading}

/-! ## The answer -/

theorem lowOk_self (low : Bound ℚ) : lowOk low low = true := by
  cases low <;> simp [lowOk, Comparison.lt]

theorem highOk_self (high : Bound ℚ) : highOk high high = true := by
  cases high <;> simp [highOk, Comparison.gt]

theorem subIntervalP_self (i : List (Bound ℚ)) : subIntervalP i i = true :=
  Bool.and_eq_true_iff.mpr ⟨lowOk_self _, highOk_self _⟩

theorem subIntervalP_bounds (i1 i2 : List (Bound ℚ)) :
    subIntervalP i1 i2 =
      subIntervalP [(bounds i1).1, (bounds i1).2] [(bounds i2).1, (bounds i2).2] := rfl

theorem intervalOf_canonical (a : RealType) :
    ∃ i, intervalOf (canonical a.specifier) = some (a.head.name, i) ∧ bounds i = a.limits := by
  cases a with
  | name realName => cases realName <;> exact ⟨_, rfl, rfl⟩
  | integer args => cases args <;> exact ⟨_, rfl, rfl⟩
  | rational args => cases args <;> exact ⟨_, rfl, rfl⟩
  | real args => cases args <;> exact ⟨_, rfl, rfl⟩

theorem knownHead_canonical (a : RealType) : knownHead (canonical a.specifier) = true := by
  cases a with
  | name realName => cases realName <;> rfl
  | integer args => cases args <;> rfl
  | rational args => cases args <;> rfl
  | real args => cases args <;> rfl

theorem subtypepNumeric_real (a b : RealType) :
    subtypepNumeric (canonical a.specifier) (canonical b.specifier) = a.answer b := by
  obtain ⟨i1, hinterval1, hbounds1⟩ := intervalOf_canonical a
  obtain ⟨i2, hinterval2, hbounds2⟩ := intervalOf_canonical b
  rw [subtypepNumeric, hinterval1, hinterval2, knownHead_canonical, RealType.answer, ← hbounds1,
    ← hbounds2, ← subIntervalP_bounds]
  cases a.head <;> cases b.head <;> rfl

theorem subtypepCanonical_interval (typep : Object → Specifier → Bool)
    (percentSubtypep : Specifier → Specifier → Cache → Reply) {type1 type2 : Specifier}
    {interval1 interval2 : Name × List (Bound ℚ)} (hne : type1 ≠ .atom .nil)
    (h1 : intervalOf type1 = some interval1) (h2 : intervalOf type2 = some interval2)
    (cache : Cache) :
    subtypepCanonical typep percentSubtypep type1 type2 cache =
      some (if type1.equal type2 then yes else subtypepNumeric type1 type2, cache) := by
  unfold subtypepCanonical
  split
  · exact absurd rfl hne
  · cases h1
  · cases h1
  · split_ifs
    · rfl
    · split
      all_goals first | cases h1 | cases h2 | rfl

theorem known_canonical (a : RealType) : Known (canonical a.specifier) := by
  cases a with
  | name realName => cases realName <;> trivial
  | integer args => cases args <;> trivial
  | rational args => cases args <;> trivial
  | real args => cases args <;> trivial

theorem answer_of_eq {a b : RealType} (h : canonical a.specifier = canonical b.specifier) :
    a.answer b = yes := by
  obtain ⟨i1, hinterval1, hbounds1⟩ := intervalOf_canonical a
  obtain ⟨i2, hinterval2, hbounds2⟩ := intervalOf_canonical b
  rw [h, hinterval2] at hinterval1
  obtain ⟨hname, rfl⟩ := Prod.mk.inj (Option.some.inj hinterval1)
  have hupTo : a.head.upTo b.head = true := by
    revert hname
    cases a.head <;> cases b.head <;> decide
  rw [RealType.answer, ← hbounds1, ← hbounds2, hupTo, subIntervalP_self]
  rfl

theorem subtypepCanonical_real (typep : Object → Specifier → Bool)
    (percentSubtypep : Specifier → Specifier → Cache → Reply) (a b : RealType) (cache : Cache) :
    subtypepCanonical typep percentSubtypep (canonical a.specifier) (canonical b.specifier) cache =
      some (a.answer b, cache) := by
  obtain ⟨i1, hinterval1, hbounds1⟩ := intervalOf_canonical a
  obtain ⟨i2, hinterval2, hbounds2⟩ := intervalOf_canonical b
  have hne : canonical a.specifier ≠ .atom .nil := by
    intro hnil
    rw [hnil] at hinterval1
    cases ha : a.head <;> rw [ha] at hinterval1 <;> cases hinterval1
  rw [subtypepCanonical_interval typep percentSubtypep hne hinterval1 hinterval2]
  split_ifs with hequal
  · rw [answer_of_eq (eq_of_equal_known (known_canonical a) (.inl hequal)).symm]
  · rw [subtypepNumeric_real]

theorem subtypepAtOnce_real {a b : RealType} {answer : Answer}
    (h : subtypepAtOnce a.specifier b.specifier = some answer) : answer = a.answer b := by
  cases a with
  | name realName1 =>
    cases b with
    | name realName2 => cases realName1 <;> cases realName2 <;> cases h <;> rfl
    | _ => cases realName1 <;> cases h
  | _ =>
    cases b with
    | name realName2 => cases realName2 <;> cases h
    | _ => cases h

/-- **What `subtypep` returns** for two interval types, whatever calls there were before. -/
theorem percentSubtypep_real (typep : Object → Specifier → Bool) (types : List Specifier)
    (depth : ℕ) (a b : RealType) :
    ∃ cache, percentSubtypep typep (depth + 1) a.specifier b.specifier (canonicalTypes types) =
      some (a.answer b, cache) := by
  have known_specifier : ∀ a : RealType, Known a.specifier := fun a => by cases a <;> trivial
  rw [percentSubtypep]
  split
  · rename_i answer hanswer
    rw [subtypepAtOnce_real hanswer]
    exact ⟨_, rfl⟩
  · obtain ⟨hcanonical1, hcache1⟩ :=
      canonicalizeType_known (known_specifier a) (exact_canonicalTypes types)
    obtain ⟨hcanonical2, -⟩ := canonicalizeType_known (known_specifier b) hcache1
    dsimp only
    rw [hcanonical1, hcanonical2, subtypepCanonical_real]
    exact ⟨_, rfl⟩

/-! ## Numbers that tell two intervals apart -/

/-- The lower bound of the second type is an exclusive integer, and the one of the first type lies
between it and the next integer. -/
def RoundedLow (low1 low2 : Bound ℚ) : Prop :=
  ∃ p l, low2 = .excl p ∧ p.den = 1 ∧ (low1 = .incl l ∨ low1 = .excl l) ∧ p < l ∧ l < p + 1

/-- The same for upper bounds. -/
def RoundedHigh (high1 high2 : Bound ℚ) : Prop :=
  ∃ p h, high2 = .excl p ∧ p.den = 1 ∧ (high1 = .incl h ∨ high1 = .excl h) ∧ p - 1 < h ∧ h < p

theorem normalizeLow_incl (q : ℚ) : normalizeLow (.incl q) = .incl q := rfl

theorem normalizeLow_excl_int {q : ℚ} (h : q.den = 1) :
    normalizeLow (.excl q) = .incl (q + 1) := if_pos (decide_eq_true h)

theorem normalizeLow_excl {q : ℚ} (h : q.den ≠ 1) : normalizeLow (.excl q) = .excl q :=
  if_neg fun hint => h (of_decide_eq_true hint)

/-- The first lower bound allows numbers that the second one, of which `q` is the number, does
not. -/
def Earlier (low1 low2 : Bound ℚ) (q : ℚ) : Prop :=
  match low1, low2 with
  | .star, _ => True
  | .incl l, .excl _ => l ≤ q
  | .incl l, _ => l < q
  | .excl l, _ => l < q

theorem lowOk_star (low : Bound ℚ) : lowOk low .star = true := by
  cases low <;> rfl

/-- Where `sub-interval-p` finds a lower bound too low, it is lower. -/
theorem earlier_of_lowOk {low1 low2 : Bound ℚ}
    (h : lowOk (normalizeLow low1) (normalizeLow low2) = false) (hslip : ¬ RoundedLow low1 low2) :
    ∃ q, (low2 = .incl q ∨ low2 = .excl q) ∧ Earlier low1 low2 q := by
  cases low2 with
  | star => exact absurd (lowOk_star _) (Bool.eq_false_iff.mp h)
  | incl q =>
    refine ⟨q, .inl rfl, ?_⟩
    rw [normalizeLow_incl] at h
    cases low1 with
    | star => trivial
    | incl l =>
      have hlt : l < q := by simpa [normalizeLow_incl, lowOk, Comparison.lt] using h
      exact hlt
    | excl l =>
      by_cases hl : l.den = 1
      · rw [normalizeLow_excl_int hl] at h
        have hlt : l + 1 < q := by simpa [lowOk, Comparison.lt] using h
        exact (lt_add_one l).trans hlt
      · rw [normalizeLow_excl hl] at h
        have hlt : l < q := by simpa [lowOk, Comparison.lt] using h
        exact hlt
  | excl q =>
    refine ⟨q, .inr rfl, ?_⟩
    by_cases hq : q.den = 1
    · -- the second bound has become `q + 1`
      have hstep : ∀ l, low1 = .incl l ∨ low1 = .excl l → l < q + 1 → l ≤ q := by
        intro l hlow1 hlt
        by_contra hle
        exact hslip ⟨q, l, rfl, hq, hlow1, not_le.mp hle, hlt⟩
      rw [normalizeLow_excl_int hq] at h
      cases low1 with
      | star => trivial
      | incl l =>
        have hlt : l < q + 1 := by simpa [normalizeLow_incl, lowOk, Comparison.lt] using h
        exact hstep l (.inl rfl) hlt
      | excl l =>
        by_cases hl : l.den = 1
        · rw [normalizeLow_excl_int hl] at h
          have hlt : l + 1 < q + 1 := by simpa [lowOk, Comparison.lt] using h
          exact lt_of_add_lt_add_right hlt
        · rw [normalizeLow_excl hl] at h
          have hlt : l < q + 1 := by simpa [lowOk, Comparison.lt] using h
          refine lt_of_le_of_ne (hstep l (.inr rfl) hlt) fun heq => hl ?_
          rw [heq, hq]
    · rw [normalizeLow_excl hq] at h
      cases low1 with
      | star => trivial
      | incl l =>
        have hle : l ≤ q := by simpa [normalizeLow_incl, lowOk, Comparison.le] using h
        exact hle
      | excl l =>
        by_cases hl : l.den = 1
        · rw [normalizeLow_excl_int hl] at h
          have hle : l + 1 ≤ q := by simpa [lowOk, Comparison.le] using h
          exact (lt_add_one l).trans_le hle
        · rw [normalizeLow_excl hl] at h
          have hlt : l < q := by simpa [lowOk, Comparison.lt] using h
          exact hlt

/-- A lower bound that is lower lets a number pass that the other one does not, below any number
that it lets pass. -/
theorem exists_of_earlier {low1 low2 : Bound ℚ} {q : ℚ} (hlow2 : low2 = .incl q ∨ low2 = .excl q)
    (h : Earlier low1 low2 q) {x : ℚ} (hx : low1.Below x) :
    ∃ y ≤ x, low1.Below y ∧ ¬ low2.Below y := by
  have hnot : ∀ y, y < q → ¬ low2.Below y := by
    intro y hy
    rcases hlow2 with rfl | rfl
    · exact not_le.mpr hy
    · exact not_lt.mpr hy.le
  cases low1 with
  | star => exact ⟨min x (q - 1), min_le_left _ _, trivial,
      hnot _ (lt_of_le_of_lt (min_le_right _ _) (sub_one_lt q))⟩
  | incl l =>
    rcases hlow2 with rfl | rfl
    · exact ⟨l, hx, le_refl l, not_le.mpr h⟩
    · exact ⟨l, hx, le_refl l, not_lt.mpr h⟩
  | excl l =>
    obtain ⟨y, hly, hy⟩ := exists_between (lt_min hx h)
    exact ⟨y, (hy.trans_le (min_le_left _ _)).le, hly, hnot y (hy.trans_le (min_le_right _ _))⟩

theorem exists_of_lowOk {low1 low2 : Bound ℚ}
    (h : lowOk (normalizeLow low1) (normalizeLow low2) = false) (hslip : ¬ RoundedLow low1 low2)
    {x : ℚ} (hx : low1.Below x) : ∃ y ≤ x, low1.Below y ∧ ¬ low2.Below y := by
  obtain ⟨q, hlow2, hearlier⟩ := earlier_of_lowOk h hslip
  exact exists_of_earlier hlow2 hearlier hx

theorem not_roundedLow_int {low1 : Bound ℤ} (hclosed : low1.Closed) (low2 : Bound ℚ) :
    ¬ RoundedLow low1.toRat low2 := by
  rintro ⟨p, l, -, hp, hlow1, hlow, hhigh⟩
  cases low1 with
  | star => rcases hlow1 with h | h <;> cases h
  | excl n => exact hclosed n rfl
  | incl n =>
    have hl : (n : ℚ) = l := Bound.incl.inj (hlow1.resolve_right (by simp [Bound.toRat]))
    have hpnum : (p.num : ℚ) = p := (Rat.den_eq_one_iff p).mp hp
    rw [← hl, ← hpnum] at hlow hhigh
    have hlow' : p.num < n := by exact_mod_cast hlow
    have hhigh' : n < p.num + 1 := by exact_mod_cast hhigh
    omega

theorem exists_int_of_lowOk {low1 : Bound ℤ} (hclosed : low1.Closed) {low2 : Bound ℚ}
    (h : lowOk (normalizeLow low1.toRat) (normalizeLow low2) = false) {n : ℤ}
    (hn : low1.Below n) : ∃ m ≤ n, low1.Below m ∧ ¬ low2.Below (m : ℚ) := by
  obtain ⟨q, hlow2, hearlier⟩ := earlier_of_lowOk h (not_roundedLow_int hclosed low2)
  cases low1 with
  | excl l => exact absurd rfl (hclosed l)
  | star =>
    refine ⟨min n (⌈q⌉ - 1), min_le_left _ _, trivial, ?_⟩
    have hlt : ((min n (⌈q⌉ - 1) : ℤ) : ℚ) < q := by
      rw [← Int.lt_ceil]
      exact lt_of_le_of_lt (min_le_right _ _) (sub_one_lt _)
    rcases hlow2 with rfl | rfl
    · exact not_le.mpr hlt
    · exact not_lt.mpr hlt.le
  | incl l =>
    refine ⟨l, hn, le_refl l, ?_⟩
    rcases hlow2 with rfl | rfl
    · exact not_le.mpr hearlier
    · exact not_lt.mpr hearlier

/-! ### Upper bounds, which are lower bounds of the negative numbers -/

def Bound.neg {α : Type} [Neg α] : Bound α → Bound α
  | .star => .star
  | .incl n => .incl (-n)
  | .excl n => .excl (-n)

theorem below_neg {α : Type} [AddCommGroup α] [LinearOrder α] [IsOrderedAddMonoid α]
    (high : Bound α) (x : α) : high.neg.Below (-x) ↔ high.Above x := by
  cases high with
  | star => exact Iff.rfl
  | incl q => exact neg_le_neg_iff
  | excl q => exact neg_lt_neg_iff

theorem normalizeHigh_neg (high : Bound ℚ) :
    (normalizeHigh high).neg = normalizeLow high.neg := by
  cases high with
  | star => rfl
  | incl q => rfl
  | excl q =>
    by_cases hq : q.den = 1
    · have hhigh : normalizeHigh (.excl q) = .incl (q - 1) := if_pos (decide_eq_true hq)
      rw [hhigh, Bound.neg, Bound.neg, normalizeLow_excl_int (by rwa [Rat.neg_den])]
      congr 1
      ring
    · have hhigh : normalizeHigh (.excl q) = .excl q :=
        if_neg fun hint => hq (of_decide_eq_true hint)
      rw [hhigh, Bound.neg, normalizeLow_excl (by rwa [Rat.neg_den])]

theorem highOk_neg (high1 high2 : Bound ℚ) :
    highOk high1 high2 = lowOk high1.neg high2.neg := by
  cases high1 <;> cases high2 <;>
    simp [highOk, lowOk, Bound.neg, Comparison.lt, Comparison.le, Comparison.gt, Comparison.ge]

theorem roundedLow_neg {high1 high2 : Bound ℚ} (h : RoundedLow high1.neg high2.neg) :
    RoundedHigh high1 high2 := by
  obtain ⟨p, l, hhigh2, hp, hhigh1, hlow, hhigh⟩ := h
  refine ⟨-p, -l, ?_, by rwa [Rat.neg_den], ?_, by linarith, by linarith⟩
  · cases high2 with
    | excl q => rw [← Bound.excl.inj hhigh2, neg_neg]
    | _ => cases hhigh2
  · cases high1 with
    | star => rcases hhigh1 with h | h <;> cases h
    | incl q =>
      left
      rw [← Bound.incl.inj (hhigh1.resolve_right (by simp [Bound.neg])), neg_neg]
    | excl q =>
      right
      rw [← Bound.excl.inj (hhigh1.resolve_left (by simp [Bound.neg])), neg_neg]

theorem exists_of_highOk {high1 high2 : Bound ℚ}
    (h : highOk (normalizeHigh high1) (normalizeHigh high2) = false)
    (hslip : ¬ RoundedHigh high1 high2) {x : ℚ} (hx : high1.Above x) :
    ∃ y ≥ x, high1.Above y ∧ ¬ high2.Above y := by
  rw [highOk_neg, normalizeHigh_neg, normalizeHigh_neg] at h
  obtain ⟨y, hle, hbelow, hnot⟩ :=
    exists_of_lowOk h (fun hrounded => hslip (roundedLow_neg hrounded)) ((below_neg high1 x).mpr hx)
  refine ⟨-y, le_neg_of_le_neg hle, ?_, fun habove => hnot ?_⟩
  · rwa [← below_neg, neg_neg]
  · rwa [← below_neg, neg_neg] at habove

theorem toRat_neg (high : Bound ℤ) : high.toRat.neg = high.neg.toRat := by
  cases high <;> simp [Bound.toRat, Bound.neg]

theorem exists_int_of_highOk {high1 : Bound ℤ} (hclosed : high1.Closed) {high2 : Bound ℚ}
    (h : highOk (normalizeHigh high1.toRat) (normalizeHigh high2) = false) {n : ℤ}
    (hn : high1.Above n) : ∃ m ≥ n, high1.Above m ∧ ¬ high2.Above (m : ℚ) := by
  have hclosed' : high1.neg.Closed := by
    intro k hk
    cases high1 with
    | excl m => exact hclosed m rfl
    | _ => cases hk
  rw [highOk_neg, normalizeHigh_neg, normalizeHigh_neg, toRat_neg] at h
  obtain ⟨m, hle, hbelow, hnot⟩ :=
    exists_int_of_lowOk hclosed' h ((below_neg high1 n).mpr hn)
  refine ⟨-m, le_neg_of_le_neg hle, ?_, fun habove => hnot ?_⟩
  · rwa [← below_neg, neg_neg]
  · rwa [← below_neg, Int.cast_neg, neg_neg] at habove

/-! ## Meanings -/

/-- The rational numbers of a type. -/
def RealType.Contains (a : RealType) (q : ℚ) : Prop :=
  (a.head = .integer → q.den = 1) ∧ a.limits.1.Below q ∧ a.limits.2.Above q

theorem isInteger_ofRational {p : ℤ → Prop} {q : ℚ} :
    IsInteger p (.ofRational q) ↔ q.den = 1 ∧ p q.num := by
  rw [Object.ofRational]
  split_ifs with hq
  · rw [isInteger_integer]
    exact (and_iff_right hq).symm
  · refine ⟨?_, fun h => absurd h.1 hq⟩
    rintro ⟨_, _, h, -⟩
    cases h

theorem isRational_ofRational {p : ℚ → Prop} {q : ℚ} : IsRational p (.ofRational q) ↔ p q := by
  rw [Object.ofRational]
  split_ifs with hq
  · have hnum : (q.num : ℚ) = q := (Rat.den_eq_one_iff q).mp hq
    constructor
    · rintro (⟨_, _, h, hp⟩ | ⟨_, _, h, -⟩)
      · cases h
        rwa [hnum] at hp
      · cases h
    · exact fun hp => .inl ⟨0, q.num, rfl, by rwa [hnum]⟩
  · constructor
    · rintro (⟨_, _, h, -⟩ | ⟨_, _, h, hp⟩)
      · cases h
      · cases h
        exact hp
    · exact fun hp => .inr ⟨0, q, rfl, hp⟩

theorem not_isFloat_ofRational {format : FloatFormat → Prop} {p : ℚ → Prop} {q : ℚ} :
    ¬ IsFloat format p (.ofRational q) := by
  rintro ⟨_, _, _, _, h, -⟩
  rw [Object.ofRational] at h
  split_ifs at h

theorem real_ofRational {p : ℚ → Prop} {q : ℚ} :
    IntervalName.Has .real p (.ofRational q) ↔ p q :=
  (or_iff_left not_isFloat_ofRational).trans isRational_ofRational

theorem below_toRat (low : Bound ℤ) (n : ℤ) : low.toRat.Below (n : ℚ) ↔ low.Below n := by
  cases low <;> simp [Bound.toRat, Bound.Below]

theorem above_toRat (high : Bound ℤ) (n : ℤ) : high.toRat.Above (n : ℚ) ↔ high.Above n := by
  cases high <;> simp [Bound.toRat, Bound.Above]

theorem RealType.has_ofRational (a : RealType) {q : ℚ} :
    a.specifier.Has up .standard (.ofRational q) ↔ a.Contains q := by
  cases a with
  | name realName =>
    cases realName with
    | integer =>
      refine isInteger_ofRational.trans ?_
      exact ⟨fun h => ⟨fun _ => h.1, trivial, trivial⟩, fun h => ⟨h.1 rfl, trivial⟩⟩
    | rational =>
      refine (isRational_ofRational (p := fun _ => True)).trans ?_
      exact ⟨fun _ => ⟨RealName.noConfusion, trivial, trivial⟩, fun _ => trivial⟩
    | real =>
      refine real_ofRational.trans ?_
      exact ⟨fun _ => ⟨RealName.noConfusion, trivial, trivial⟩, fun _ => trivial⟩
  | integer args =>
    refine isInteger_ofRational.trans ?_
    have hwithin : ∀ n : ℤ, Within args n ↔ (integer args).limits.1.Below (n : ℚ) ∧
        (integer args).limits.2.Above (n : ℚ) := by
      intro n
      refine and_congr ?_ ?_
      · exact (below_inclusiveLow _ n).symm.trans (below_toRat _ n).symm
      · exact (above_inclusiveHigh _ n).symm.trans (above_toRat _ n).symm
    constructor
    · rintro ⟨hq, h⟩
      rw [hwithin, (Rat.den_eq_one_iff q).mp hq] at h
      exact ⟨fun _ => hq, h⟩
    · rintro ⟨hq, h⟩
      rw [← (Rat.den_eq_one_iff q).mp (hq rfl), ← hwithin] at h
      exact ⟨hq rfl, h⟩
  | rational args =>
    exact isRational_ofRational.trans ⟨fun h => ⟨RealName.noConfusion, h⟩, fun h => h.2⟩
  | real args =>
    exact real_ofRational.trans ⟨fun h => ⟨RealName.noConfusion, h⟩, fun h => h.2⟩

theorem RealType.exists_contains (a : RealType) {x : Object}
    (h : a.specifier.Has up .standard x) : ∃ q, a.Contains q := by
  have hrational : ∀ {p : ℚ → Prop} {x : Object}, IsRational p x → ∃ q, p q := by
    rintro p x (⟨_, n, -, hp⟩ | ⟨_, q, -, hp⟩)
    · exact ⟨n, hp⟩
    · exact ⟨q, hp⟩
  have hreal : ∀ {p : ℚ → Prop} {x : Object}, IntervalName.Has .real p x → ∃ q, p q := by
    rintro p x (h | ⟨_, _, _, _, -, -, hp⟩)
    · exact hrational h
    · exact ⟨_, hp⟩
  cases a with
  | name realName =>
    refine ⟨0, fun _ => rfl, trivial, trivial⟩
  | integer args =>
    obtain ⟨_, n, rfl, hp⟩ := h
    exact ⟨n, (@RealType.has_ofRational up (integer args) n).mp
      (isInteger_ofRational.mpr ⟨rfl, hp⟩)⟩
  | rational args =>
    obtain ⟨q, hq⟩ := hrational h
    exact ⟨q, RealName.noConfusion, hq⟩
  | real args =>
    obtain ⟨q, hq⟩ := hreal h
    exact ⟨q, RealName.noConfusion, hq⟩

/-! ## The negative answer -/

/-- The bounds of two types over `RATIONAL` or `REAL` are such that the comparison counts in steps
of one. -/
def Rounded (a b : RealType) : Prop :=
  a.head ≠ .integer ∧ b.head ≠ .integer ∧
    (RoundedLow a.limits.1 b.limits.1 ∨ RoundedHigh a.limits.2 b.limits.2)

theorem RealType.limits_integer {a : RealType} (h : a.head = .integer) :
    ∃ low high : Bound ℤ, a.limits = (low.toRat, high.toRat) ∧ low.Closed ∧ high.Closed := by
  cases a with
  | name realName => exact ⟨.star, .star, rfl, fun _ => nofun, fun _ => nofun⟩
  | integer args =>
    refine ⟨_, _, rfl, fun n => ?_, fun n => ?_⟩
    · cases (bounds args).1 <;> simp [inclusiveLow]
    · cases (bounds args).2 <;> simp [inclusiveHigh]
  | rational args => cases h
  | real args => cases h

/-- Between two rational numbers there is one that is no integer. -/
theorem exists_not_int {x y : ℚ} (hxy : x < y) : ∃ z, x < z ∧ z < y ∧ z.den ≠ 1 := by
  obtain ⟨z, hxz, hzy⟩ := exists_between hxy
  by_cases hz : z.den = 1
  · obtain ⟨w, hw, hwz⟩ := exists_between (max_lt hxz (sub_one_lt z))
    refine ⟨w, (le_max_left _ _).trans_lt hw, hwz.trans hzy, fun hden => ?_⟩
    have hzw := (le_max_right _ _).trans_lt hw
    rw [← (Rat.den_eq_one_iff z).mp hz, ← (Rat.den_eq_one_iff w).mp hden] at hwz hzw
    have hlt : w.num < z.num := by exact_mod_cast hwz
    have hlt1 : z.num - 1 < w.num := by exact_mod_cast hzw
    omega
  · exact ⟨z, hxz, hzy, hz⟩

/-- A type over `RATIONAL` or `REAL` has a number that is no integer, or just one number. -/
theorem RealType.exists_not_int {a : RealType} (ha : a.head ≠ .integer) {q : ℚ}
    (hq : a.Contains q) :
    (∃ z, a.Contains z ∧ z.den ≠ 1) ∨ q.den = 1 ∧ ∀ z, a.Contains z ↔ z = q := by
  have hbetween : ∀ x y, a.Contains x → a.Contains y → x < y → ∃ z, a.Contains z ∧ z.den ≠ 1 := by
    intro x y hx hy hxy
    obtain ⟨z, hxz, hzy, hz⟩ := Types.exists_not_int hxy
    refine ⟨z, ⟨fun h => absurd h ha, ?_, ?_⟩, hz⟩
    · exact Bound.below_of_le hx.2.1 hxz.le
    · exact Bound.above_of_le hy.2.2 hzy.le
  by_cases hden : q.den = 1
  · by_cases hother : ∃ z, a.Contains z ∧ z ≠ q
    · obtain ⟨z, hz, hne⟩ := hother
      rcases lt_or_gt_of_ne hne with hlt | hgt
      · exact .inl (hbetween z q hz hq hlt)
      · exact .inl (hbetween q z hq hz hgt)
    · refine .inr ⟨hden, fun z => ⟨fun hz => ?_, fun hz => by rwa [hz]⟩⟩
      by_contra hne
      exact hother ⟨z, hz, hne⟩
  · exact .inl ⟨q, hq, hden⟩

/-- A comparison of the bounds that fails is shown by a rational number, unless the bounds are
rounded. -/
theorem exists_of_subIntervalP {a b : RealType} (hupTo : a.head.upTo b.head = true)
    (h : subIntervalP [a.limits.1, a.limits.2] [b.limits.1, b.limits.2] = false)
    (hslip : ¬ Rounded a b) {q : ℚ} (hq : a.Contains q) : ∃ z, a.Contains z ∧ ¬ b.Contains z := by
  have hbounds : lowOk (normalizeLow a.limits.1) (normalizeLow b.limits.1) = false ∨
      highOk (normalizeHigh a.limits.2) (normalizeHigh b.limits.2) = false :=
    Bool.and_eq_false_iff.mp h
  by_cases ha : a.head = .integer
  · obtain ⟨low, high, hlimits, hlow, hhigh⟩ := RealType.limits_integer ha
    have hint : ∀ n : ℤ, a.Contains n ↔ low.Below n ∧ high.Above n := by
      intro n
      rw [RealType.Contains, hlimits, below_toRat, above_toRat]
      exact and_iff_right fun _ => rfl
    have hqn : (q.num : ℚ) = q := (Rat.den_eq_one_iff q).mp (hq.1 ha)
    rw [← hqn, hint] at hq
    rw [hlimits] at hbounds
    rcases hbounds with hno | hno
    · obtain ⟨m, hle, hbelow, hnot⟩ := exists_int_of_lowOk hlow hno hq.1
      exact ⟨m, (hint m).mpr ⟨hbelow, Bound.above_of_le hq.2 hle⟩, fun hb => hnot hb.2.1⟩
    · obtain ⟨m, hle, habove, hnot⟩ := exists_int_of_highOk hhigh hno hq.2
      exact ⟨m, (hint m).mpr ⟨Bound.below_of_le hq.1 hle, habove⟩, fun hb => hnot hb.2.2⟩
  · have hb : b.head ≠ .integer := by
      intro hb
      revert hupTo ha
      rw [hb]
      cases a.head <;> decide
    have hrounded := fun h => hslip ⟨ha, hb, h⟩
    have hnotint : ∀ z, a.limits.1.Below z → a.limits.2.Above z → a.Contains z :=
      fun z hlow hhigh => ⟨fun h => absurd h ha, hlow, hhigh⟩
    rcases hbounds with hno | hno
    · obtain ⟨z, hle, hbelow, hnot⟩ := exists_of_lowOk hno (hrounded ∘ .inl) hq.2.1
      exact ⟨z, hnotint z hbelow (Bound.above_of_le hq.2.2 hle), fun hb => hnot hb.2.1⟩
    · obtain ⟨z, hle, habove, hnot⟩ := exists_of_highOk hno (hrounded ∘ .inr) hq.2.2
      exact ⟨z, hnotint z (Bound.below_of_le hq.2.1 hle) habove, fun hb => hnot hb.2.2⟩

/-- **The negative answer of `subtypep`** for two interval types, the first one not empty: there is
a rational number in the first type that is not in the second one; unless the first type is over
`REAL` and the second one over `RATIONAL`, so that floats would show it; or the second type is over
`INTEGER`, and the first one, over a wider name, has just one number, an integer. Nothing is said
about bounds that the comparison rounds. -/
theorem rational_of_percentSubtypep_no (up : Upgrading) (typep : Object → Specifier → Bool)
    (types : List Specifier) (depth : ℕ) (a b : RealType)
    (hne : ∃ x, a.specifier.Has up .standard x)
    (hno : ∃ cache, percentSubtypep typep (depth + 1) a.specifier b.specifier
      (canonicalTypes types) = some (no, cache))
    (hslip : ¬ Rounded a b) :
    (∃ q, a.specifier.Has up .standard (.ofRational q) ∧
      ¬ b.specifier.Has up .standard (.ofRational q)) ∨
    (a.head = .real ∧ b.head = .rational) ∨
    (a.head ≠ .integer ∧ b.head = .integer ∧
      ∃ n : ℤ, ∀ q, a.specifier.Has up .standard (.ofRational q) ↔ q = n) := by
  simp only [RealType.has_ofRational]
  obtain ⟨x, hx⟩ := hne
  obtain ⟨q, hq⟩ := a.exists_contains hx
  have hanswer : a.answer b = no := by
    obtain ⟨cache, hcall⟩ := hno
    obtain ⟨cache', hcall'⟩ := percentSubtypep_real typep types depth a b
    rw [hcall'] at hcall
    exact (Prod.mk.inj (Option.some.inj hcall)).1
  have hvalue : (a.head.upTo b.head &&
      subIntervalP [a.limits.1, a.limits.2] [b.limits.1, b.limits.2]) = false :=
    congrArg Answer.value hanswer
  cases hupTo : a.head.upTo b.head with
  | true =>
    rw [hupTo, Bool.true_and] at hvalue
    exact .inl (exists_of_subIntervalP hupTo hvalue hslip hq)
  | false =>
    have hheads : a.head = .real ∧ b.head = .rational ∨ a.head ≠ .integer ∧ b.head = .integer := by
      revert hupTo
      cases a.head <;> cases b.head <;> decide
    rcases hheads with hreal | ⟨ha, hb⟩
    · exact .inr (.inl hreal)
    · rcases RealType.exists_not_int ha hq with ⟨z, hz, hden⟩ | ⟨hden, hone⟩
      · exact .inl ⟨z, hz, fun h => hden (h.1 hb)⟩
      · refine .inr (.inr ⟨ha, hb, q.num, fun z => ?_⟩)
        rw [hone, (Rat.den_eq_one_iff q).mp hden]

/-- Bounds that are rounded: `(rational 1/2)` is not found to be a subtype of `(rational (0))`. -/
example : (RealType.rational [.incl (1 / 2)]).answer (.rational [.excl 0]) = no := by
  decide +kernel

theorem rational_of_percentSubtypep_no_one :
    (∃ q, (RealType.rational [.incl 0, .excl 2]).specifier.Has .smallest .standard (.ofRational q) ∧
      ¬ (RealType.real [.incl 1]).specifier.Has .smallest .standard (.ofRational q)) ∨
    ((RealType.rational [.incl 0, .excl 2]).head = .real ∧
      (RealType.real [.incl 1]).head = .rational) ∨
    ((RealType.rational [.incl 0, .excl 2]).head ≠ .integer ∧
      (RealType.real [.incl 1]).head = .integer ∧
      ∃ n : ℤ, ∀ q, (RealType.rational [.incl 0, .excl 2]).specifier.Has .smallest .standard
        (.ofRational q) ↔ q = n) :=
  rational_of_percentSubtypep_no .smallest (fun _ _ => false) [] 0
    (.rational [.incl 0, .excl 2]) (.real [.incl 1])
    ⟨.integer 0 1, .inl ⟨0, 1, rfl, by
      simp only [Within, bounds, Bound.Below, Bound.Above]
      norm_num⟩⟩
    ⟨_, rfl⟩ fun h => by
      rcases h.2.2 with ⟨_, _, h, -⟩ | ⟨_, _, h, -⟩
      · cases h
      · cases h

/-- `(subtypep 'real 'rational)` returns `(values nil t)`. -/
theorem not_rational_of_percentSubtypep_no :
    ¬ ∀ (up : Upgrading) (typep : Object → Specifier → Bool) (types : List Specifier) (depth : ℕ)
      (a b : RealType), (∃ x, a.specifier.Has up .standard x) →
      (∃ cache, percentSubtypep typep (depth + 1) a.specifier b.specifier (canonicalTypes types) =
        some (no, cache)) →
      ∃ q, a.specifier.Has up .standard (.ofRational q) ∧
        ¬ b.specifier.Has up .standard (.ofRational q) := by
  intro h
  obtain ⟨q, -, hq⟩ := h .smallest (fun _ _ => false) [] 0 (.name .real) (.name .rational)
    ⟨.integer 0 0, .inl (.inl ⟨0, 0, rfl, trivial⟩)⟩ ⟨[], rfl⟩
  exact hq ((isRational_ofRational (p := fun _ => True)).mpr trivial)

end Xcl.Types
