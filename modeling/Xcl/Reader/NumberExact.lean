import Mathlib.Data.Bool.AllAny
import Mathlib.Data.List.TakeWhile
import Xcl.Reader.Number

/-!
# Which tokens are numbers

* **`recognised_iff`**: all tokens and all bases.
-/

namespace Xcl.Reader

open Numbers (Rational Represents InFixnumRange)

/-! ## Characters -/

theorem char_le_iff (c d : Char) : c ≤ d ↔ c.toNat ≤ d.toNat := by
  rw [Char.le_def, UInt32.le_iff_toNat_le]
  rfl

theorem weight_eq (c : Char) : weight c =
    if 48 ≤ c.toNat ∧ c.toNat ≤ 57 then c.toNat - 48
    else if 65 ≤ c.toNat ∧ c.toNat ≤ 90 then c.toNat - 55
    else if 97 ≤ c.toNat ∧ c.toNat ≤ 122 then c.toNat - 87
    else 36 := by
  simp only [weight, char_le_iff]
  rfl

theorem digitCharP_iff {c : Char} {radix : ℕ} (hradix : radix ≤ 36) :
    digitCharP c radix = true ↔ weight c < radix := by
  have h0 : '0'.toNat = 48 := rfl
  have hA : 'A'.toNat = 65 := rfl
  have ha : 'a'.toNat = 97 := rfl
  rw [weight_eq]
  simp only [digitCharP, char_le_iff, h0, hA, ha]
  split_ifs <;> simp <;> omega

theorem isDecimal_iff {c : Char} : isDecimal c = true ↔ weight c < 10 := by
  have h0 : '0'.toNat = 48 := rfl
  have h9 : '9'.toNat = 57 := rfl
  rw [weight_eq]
  simp only [isDecimal, char_le_iff, h0, h9, decide_eq_true_eq]
  split_ifs <;> omega

@[simp] theorem weight_plus : weight '+' = 36 := rfl

@[simp] theorem weight_minus : weight '-' = 36 := rfl

@[simp] theorem weight_point : weight '.' = 36 := rfl

@[simp] theorem weight_slash : weight '/' = 36 := rfl

theorem isDigit_iff {c : Char} {base : ℕ} (hbase : base ≤ 36) :
    (if base = 10 then isDecimal else (digitCharP · base)) c = true ↔ weight c < base := by
  split_ifs with h
  · rw [h]
    exact isDecimal_iff
  · exact digitCharP_iff hbase

section Strings

variable {base : ℕ} {s digits : List Char} (sign : Sign)

theorem Digits.ne_of_weight (h : Digits base digits) (hbase : base ≤ 36) {d : Char}
    (hd : weight d = 36) : ∀ c ∈ digits, c ≠ d := by
  rintro c hc rfl
  have := h.2 c hc
  omega

theorem maybeInteger_iff {isDigit : Char → Bool}
    (hdigit : ∀ c, isDigit c = true ↔ weight c < base) (hs : s ≠ []) :
    maybeInteger isDigit s = true ↔
      ∃ (sign : Sign) (digits : List Char), s = sign.text ++ digits ∧ Digits base digits := by
  obtain ⟨c, s, rfl⟩ := List.exists_cons_of_ne_nil hs
  have hall : s.all isDigit = true ↔ ∀ c ∈ s, weight c < base := by
    rw [List.all_eq_true]
    exact forall₂_congr fun c _ => hdigit c
  rw [maybeInteger, Bool.and_eq_true, hall, Bool.or_eq_true, hdigit]
  constructor
  · rintro ⟨hc | hc, htail⟩
    · exact ⟨.none, c :: s, rfl, by simp, List.forall_mem_cons.mpr ⟨hc, htail⟩⟩
    · simp only [Bool.and_eq_true, Bool.or_eq_true, decide_eq_true_eq, ne_eq] at hc
      obtain ⟨hne, rfl | rfl⟩ := hc
      · exact ⟨.minus, s, rfl, hne, htail⟩
      · exact ⟨.plus, s, rfl, hne, htail⟩
  · rintro ⟨sign, digits, heq, hne, hdigits⟩
    cases sign with
    | none =>
      obtain rfl : c :: s = digits := heq
      exact ⟨.inl (hdigits c List.mem_cons_self), fun x hx =>
        hdigits x (List.mem_cons_of_mem _ hx)⟩
    | plus =>
      obtain ⟨rfl, rfl⟩ := List.cons.inj heq
      exact ⟨.inr (by simpa using hne), hdigits⟩
    | minus =>
      obtain ⟨rfl, rfl⟩ := List.cons.inj heq
      exact ⟨.inr (by simpa using hne), hdigits⟩

theorem skipSign_eq (hbase : base ≤ 36) (h : Digits base digits) :
    skipSign (sign.text ++ digits) = (decide (sign = .minus), digits) := by
  obtain ⟨c, tail, rfl⟩ := List.exists_cons_of_ne_nil h.1
  have hplus := h.ne_of_weight hbase weight_plus c List.mem_cons_self
  have hminus := h.ne_of_weight hbase weight_minus c List.mem_cons_self
  cases sign with
  | none => simp [Sign.text, skipSign, hplus, hminus]
  | plus => rfl
  | minus => rfl

theorem skipPrefix_eq (h : Digits base digits) : skipPrefix base digits = digits := by
  unfold skipPrefix
  split
  · rename_i x c rest
    refine if_neg ?_
    rintro ⟨rfl, hx, -⟩
    -- the letter of the prefix is no digit in base 16
    have hweight := h.2 x (by simp)
    rcases hx with rfl | rfl <;> revert hweight <;> decide
  · rfl

theorem weight_of_space {c : Char} (h : c.toNat ∈ [9, 10, 11, 12, 13, 32]) : weight c = 36 := by
  simp only [List.mem_cons, List.not_mem_nil, or_false] at h
  rw [weight_eq]
  split_ifs <;> omega

theorem dropSpaces_eq (hbase : base ≤ 36) (h : Digits base digits) :
    (sign.text ++ digits).dropWhile (fun c => c.toNat ∈ [9, 10, 11, 12, 13, 32]) =
      sign.text ++ digits := by
  obtain ⟨c, tail, rfl⟩ := List.exists_cons_of_ne_nil h.1
  cases sign with
  | none =>
    refine List.dropWhile_cons_of_neg ?_
    rw [decide_eq_true_eq]
    intro hspace
    have := h.2 c List.mem_cons_self
    have := weight_of_space hspace
    omega
  | plus => rfl
  | minus => rfl

theorem strtol_eq (hbase : base ≤ 36) (h : Digits base digits) :
    strtol (sign.text ++ digits) base =
      max (-2 ^ 63) (min (2 ^ 63 - 1) (sign.apply (digitsValue base digits))) := by
  have htake : digits.takeWhile (fun c => weight c < base) = digits := by
    rw [List.takeWhile_eq_self_iff]
    exact fun c hc => by simpa using h.2 c hc
  rw [strtol, dropSpaces_eq sign hbase h, skipSign_eq sign hbase h]
  simp only [skipPrefix_eq h, htake]
  cases sign <;> rfl

/-! ## Integers -/

variable {φ : Type} {L : Libraries φ} (default : FloatFormat)

/-- A string of digits is the integer that it denotes, by `strtol` or by `mpz_set_str`. -/
theorem makeIntegerObject_spec (hL : ReadsDigits L) (hlow : 2 ≤ base) (hbase : base ≤ 36)
    (h : Digits base digits) :
    ∃ x, makeIntegerObject L (sign.text ++ digits) base = some x ∧
      Represents x (sign.apply (digitsValue base digits)) ∧
      (NumberObject.rational x : NumberObject φ).asInteger = some x := by
  have hstrtol := strtol_eq sign hbase h
  obtain ⟨hset, hsetneg⟩ := hL base hlow hbase digits h
  generalize hv : sign.apply (digitsValue base digits) = v at hstrtol ⊢
  have hfix : InFixnumRange v ↔ -2 ^ 61 ≤ v ∧ v ≤ 2 ^ 61 - 1 := by
    norm_num [InFixnumRange, Numbers.mostNegativeFixnum, Numbers.mostPositiveFixnum]
  have hfix' : InFixnumRange (max (-2 ^ 63) (min (2 ^ 63 - 1) v)) ↔ InFixnumRange v := by
    rw [hfix]
    simp only [InFixnumRange, Numbers.mostNegativeFixnum, Numbers.mostPositiveFixnum]
    omega
  rw [makeIntegerObject, hstrtol]
  simp only [hfix']
  split_ifs with hrange hlong
  · have hv' : max (-2 ^ 63) (min (2 ^ 63 - 1) v) = v := by
      rw [hfix] at hrange
      omega
    rw [hv']
    exact ⟨_, rfl, ⟨hrange, rfl⟩, rfl⟩
  · have hv' : max (-2 ^ 63) (min (2 ^ 63 - 1) v) = v := by omega
    rw [hv']
    exact ⟨_, rfl, ⟨hrange, rfl⟩, rfl⟩
  · refine ⟨.bignum v, ?_, ⟨hrange, rfl⟩, rfl⟩
    obtain ⟨c, tail, rfl⟩ := List.exists_cons_of_ne_nil h.1
    have hplus := h.ne_of_weight hbase weight_plus c List.mem_cons_self
    cases sign with
    | none =>
      have hskip : skipPlus (Sign.text .none ++ c :: tail) = c :: tail := by
        simp [Sign.text, skipPlus, hplus]
      rw [hskip, hset, ← hv]
      rfl
    | plus =>
      rw [show skipPlus (Sign.text .plus ++ c :: tail) = c :: tail from rfl, hset, ← hv]
      rfl
    | minus =>
      rw [show skipPlus (Sign.text .minus ++ c :: tail) = '-' :: c :: tail from rfl, hsetneg, ← hv]
      rfl

/-! ## A token without a slash -/

/-- The token without a dot at its end, for which the base is ten. -/
def stripPoint (s : List Char) : List Char := if s.getLast? = some '.' then s.dropLast else s

theorem ne_nil_of_digits (h : Digits base digits) : sign.text ++ digits ≠ [] := by
  simp [h.1]

theorem getLast?_digits (hbase : base ≤ 36) (h : Digits base digits) :
    (sign.text ++ digits).getLast? ≠ some '.' := by
  rw [List.getLast?_append_of_ne_nil _ h.1, List.getLast?_eq_some_getLast h.1]
  intro hlast
  exact h.ne_of_weight hbase weight_point _ (List.getLast_mem h.1) (Option.some.inj hlast)

theorem makeUnslashed_digits (hL : ReadsDigits L) (hlow : 2 ≤ base) (hbase : base ≤ 36)
    (h : Digits base digits) :
    ∃ x, makeUnslashed L default (sign.text ++ digits) base = some (.rational x) ∧
      Represents x (sign.apply (digitsValue base digits)) ∧
      (NumberObject.rational x : NumberObject φ).asInteger = some x := by
  obtain ⟨x, hx, hrep, hint⟩ := makeIntegerObject_spec sign hL hlow hbase h
  have hmaybe := (maybeInteger_iff (fun c => isDigit_iff hbase)
    (ne_nil_of_digits sign h)).mpr ⟨sign, digits, rfl, h⟩
  refine ⟨x, ?_, hrep, hint⟩
  rw [makeUnslashed, if_neg (ne_nil_of_digits sign h), if_neg (getLast?_digits sign hbase h)]
  dsimp only
  rw [if_neg (ne_nil_of_digits sign h), if_pos hmaybe, hx]
  rfl

theorem makeUnslashed_decimal (hL : ReadsDigits L) (base : ℕ) (h : Digits 10 digits) :
    ∃ x, makeUnslashed L default (sign.text ++ digits ++ ['.']) base = some (.rational x) ∧
      Represents x (sign.apply (digitsValue 10 digits)) ∧
      (NumberObject.rational x : NumberObject φ).asInteger = some x := by
  obtain ⟨x, hx, hrep, hint⟩ := makeIntegerObject_spec sign hL (by decide) (by decide) h
  have hmaybe := (maybeInteger_iff (fun c => isDigit_iff (show 10 ≤ 36 by decide))
    (ne_nil_of_digits sign h)).mpr ⟨sign, digits, rfl, h⟩
  refine ⟨x, ?_, hrep, hint⟩
  rw [makeUnslashed, if_neg (by simp), if_pos (by simp)]
  dsimp only
  rw [List.dropLast_concat, if_neg (ne_nil_of_digits sign h), if_pos hmaybe, hx]
  rfl

theorem makeUnslashed_integer (hL : ReadsDigits L) (hlow : 2 ≤ base) (hbase : base ≤ 36) {n : ℤ}
    (h : IntegerSyntax base s n) :
    ∃ x, makeUnslashed L default s base = some (.rational x) ∧ Represents x n ∧
      (NumberObject.rational x : NumberObject φ).asInteger = some x := by
  cases h with
  | decimal sign digits h => exact makeUnslashed_decimal sign default hL base h
  | digits sign digits h => exact makeUnslashed_digits sign default hL hlow hbase h

theorem makeUnslashed_other (hbase : base ≤ 36) (h : ∀ n, ¬IntegerSyntax base s n) :
    makeUnslashed L default s base = (makeFloat L default (stripPoint s)).map .float := by
  rw [makeUnslashed, stripPoint]
  by_cases hs : s = []
  · subst hs
    rfl
  rw [if_neg hs]
  by_cases hlast : s.getLast? = some '.'
  · rw [if_pos hlast, if_pos hlast]
    dsimp only
    obtain ⟨s', rfl⟩ := List.getLast?_eq_some_iff.mp hlast
    rw [List.dropLast_concat]
    by_cases hs' : s' = []
    · subst hs'
      rfl
    rw [if_neg hs', if_neg]
    intro hmaybe
    obtain ⟨sign, digits, rfl, hdigits⟩ :=
      (maybeInteger_iff (fun c => isDigit_iff (show 10 ≤ 36 by decide)) hs').mp hmaybe
    exact h _ (.decimal sign digits hdigits)
  · rw [if_neg hlast, if_neg hlast]
    dsimp only
    rw [if_neg hs, if_neg]
    intro hmaybe
    obtain ⟨sign, digits, rfl, hdigits⟩ :=
      (maybeInteger_iff (fun c => isDigit_iff hbase) hs).mp hmaybe
    exact h _ (.digits sign digits hdigits)

theorem takenForFloat_iff :
    TakenForFloat L default s ↔ makeFloat L default (stripPoint s) ≠ none := by
  unfold TakenForFloat makeFloat stripPoint
  cases scanFloat default (if s.getLast? = some '.' then s.dropLast else s) with
  | none => simp
  | some x => simp [Prod.ext_iff]

theorem makeUnslashed_eq_none (hL : ReadsDigits L) (hlow : 2 ≤ base) (hbase : base ≤ 36) :
    makeUnslashed L default s base = none ↔
      (∀ n, ¬IntegerSyntax base s n) ∧ ¬TakenForFloat L default s := by
  by_cases h : ∀ n, ¬IntegerSyntax base s n
  · rw [makeUnslashed_other default hbase h, takenForFloat_iff]
    simp [h]
  · push Not at h
    obtain ⟨n, hn⟩ := h
    obtain ⟨x, hx, -⟩ := makeUnslashed_integer default hL hlow hbase hn
    rw [hx]
    simp only [reduceCtorEq, false_iff, not_and]
    exact fun hall => absurd hn (hall n)

/-! ## Slashes -/

theorem slash_not_mem_sign : '/' ∉ sign.text := by cases sign <;> simp [Sign.text]

theorem Digits.slash_not_mem (hbase : base ≤ 36) (h : Digits base digits) : '/' ∉ digits :=
  fun hmem => h.ne_of_weight hbase weight_slash '/' hmem rfl

theorem IntegerSyntax.slash_not_mem (hbase : base ≤ 36) {n : ℤ} (h : IntegerSyntax base s n) :
    '/' ∉ s := by
  cases h with
  | decimal sign digits h =>
    simp [slash_not_mem_sign, h.slash_not_mem (by decide)]
  | digits sign digits h => simp [slash_not_mem_sign, h.slash_not_mem hbase]

theorem ExponentSyntax.slash_not_mem (h : ExponentSyntax s) : '/' ∉ s := by
  cases h with
  | none => simp
  | some marker sign digits hmarker h =>
    have hne : '/' ≠ marker := by
      rintro rfl
      revert hmarker
      decide
    simp [slash_not_mem_sign, h.slash_not_mem (by decide), hne]

theorem slash_not_mem_of_weight (h : ∀ c ∈ s, weight c < 10) : '/' ∉ s := fun hmem => by
  have := h '/' hmem
  simp at this

theorem FloatSyntax.slash_not_mem (h : FloatSyntax s) : '/' ∉ s := by
  cases h with
  | fraction sign whole fraction exponent hwhole hfraction h =>
    simp [slash_not_mem_sign, slash_not_mem_of_weight hwhole,
      hfraction.slash_not_mem (by decide), h.slash_not_mem]
  | exponent sign whole point exponent hwhole hpoint hexponent h =>
    have hno : '/' ∉ point := by
      rcases hpoint with rfl | ⟨fraction, rfl, hfraction⟩
      · simp
      · simp [slash_not_mem_of_weight hfraction]
    simp [slash_not_mem_sign, hwhole.slash_not_mem (by decide), hno, h.slash_not_mem]

theorem takeWhile_slash {t u : List Char} (h : '/' ∉ t) :
    (t ++ '/' :: u).takeWhile (· ≠ '/') = t ∧ ((t ++ '/' :: u).dropWhile (· ≠ '/')).tail = u := by
  have hall : ∀ c ∈ t, decide (c ≠ '/') = true := by
    intro c hc
    rw [decide_eq_true_eq]
    rintro rfl
    exact h hc
  rw [List.takeWhile_append_of_pos hall, List.dropWhile_append_of_pos hall]
  simp

theorem RatioSyntax.slash_mem {n : ℤ} {d : ℕ} (h : RatioSyntax base s n d) : '/' ∈ s := by
  cases h
  simp

theorem makeNumber_ratio (hL : ReadsDigits L) (hlow : 2 ≤ base) (hbase : base ≤ 36) (stream : Bool)
    {n : ℤ} {d : ℕ} (h : RatioSyntax base s n d) :
    if d = 0 then ∃ e, makeNumber L default s base stream = .error e
    else ∃ x, makeNumber L default s base stream = .ok (some (.rational x)) ∧
      Represents x (n / d) := by
  have hslash := h.slash_mem
  cases h with
  | mk sign numerator denominator hn hd =>
    have hno : '/' ∉ sign.text ++ numerator := by
      simp [slash_not_mem_sign, hn.slash_not_mem hbase]
    obtain ⟨htake, hdrop⟩ := takeWhile_slash (u := denominator) hno
    obtain ⟨x, hx, hxrep, hxint⟩ :=
      makeUnslashed_digits sign default hL hlow hbase hn
    obtain ⟨y, hy, hyrep, hyint⟩ :=
      makeUnslashed_digits .none default hL hlow hbase hd
    have hall : denominator.all (digitCharP · base) = true := by
      rw [List.all_eq_true]
      exact fun c hc => (digitCharP_iff hbase).mpr (hd.2 c hc)
    have hzero : y = .fixnum 0 ↔ digitsValue base denominator = 0 := by
      rw [hyrep.eq_zero_iff]
      simp [Sign.apply]
    rw [show Sign.text .none ++ denominator = denominator from rfl] at hy
    rw [makeNumber, if_pos hslash]
    simp only [htake, hdrop, hx, hy, hall, if_true, hxint, Option.bind_some, hyint, hzero]
    split_ifs with hd0 hstream hstream
    · exact ⟨_, rfl⟩
    · rw [hzero.mpr hd0]
      exact ⟨.divisionByZero, rfl⟩
    · exact absurd hstream.2 hd0
    · obtain ⟨z, hz, hzrep⟩ := Numbers.twoArgSlash_represents hxrep hyrep
        (by simpa [Sign.apply] using hd0)
      rw [hz]
      refine ⟨z, rfl, ?_⟩
      simpa [Sign.apply] using hzrep

theorem makeNumber_ne_none (hL : ReadsDigits L) (hlow : 2 ≤ base) (hbase : base ≤ 36)
    (stream : Bool) (hslash : '/' ∈ s)
    (hdigits : ∀ c ∈ (s.dropWhile (· ≠ '/')).tail, weight c < base)
    (hnumerator : (∃ n, IntegerSyntax base (s.takeWhile (· ≠ '/')) n) ∨
      TakenForFloat L default (s.takeWhile (· ≠ '/'))) :
    makeNumber L default s base stream ≠ .ok none := by
  have hall : (s.dropWhile (· ≠ '/')).tail.all (digitCharP · base) = true := by
    rw [List.all_eq_true]
    exact fun c hc => (digitCharP_iff hbase).mpr (hdigits c hc)
  rw [makeNumber, if_pos hslash]
  dsimp only
  cases hnum : makeUnslashed L default (s.takeWhile (· ≠ '/')) base with
  | none =>
    obtain ⟨hno, hnofloat⟩ := (makeUnslashed_eq_none default hL hlow hbase).mp hnum
    exact absurd hnumerator (by push Not; exact ⟨hno, hnofloat⟩)
  | some numerator =>
    dsimp only
    rw [if_pos hall]
    split
    · split_ifs
      · simp
      · split <;> simp
    · simp

theorem makeNumber_eq_none (hL : ReadsDigits L) (hlow : 2 ≤ base) (hbase : base ≤ 36)
    (stream : Bool) (hslash : '/' ∈ s)
    (h : ¬((∀ c ∈ (s.dropWhile (· ≠ '/')).tail, weight c < base) ∧
      ((∃ n, IntegerSyntax base (s.takeWhile (· ≠ '/')) n) ∨
        TakenForFloat L default (s.takeWhile (· ≠ '/'))))) :
    makeNumber L default s base stream = .ok none := by
  rw [makeNumber, if_pos hslash]
  dsimp only
  cases hnum : makeUnslashed L default (s.takeWhile (· ≠ '/')) base with
  | none => rfl
  | some numerator =>
    dsimp only
    rw [if_neg]
    rw [List.all_eq_true]
    intro hall
    refine h ⟨fun c hc => (digitCharP_iff hbase).mp (hall c hc), ?_⟩
    by_contra hno
    push Not at hno
    rw [(makeUnslashed_eq_none default hL hlow hbase).mpr hno] at hnum
    cases hnum

theorem recognised_none (h : ∀ n, ¬IntegerSyntax base s n) (h' : ∀ n d, ¬RatioSyntax base s n d) :
    Recognised base s (.ok none : Except NumberError (Option (NumberObject φ))) where
  integer n hn := absurd hn (h n)
  ratio n d hn := absurd hn (h' n d)
  other _ _ := ⟨by simp, by simp, fun _ => rfl⟩

/-- **Which tokens are numbers**: `make_number` recognises exactly the numbers that are no floats,
but for the tokens that are taken for a float or have a number and digits around a slash. -/
theorem recognised_iff (hL : ReadsDigits L) (default : FloatFormat) (hlow : 2 ≤ base)
    (hbase : base ≤ 36) (s : List Char) (stream : Bool) :
    Recognised base s (makeNumber L default s base stream) ↔ ¬Misread L default base s := by
  by_cases hslash : '/' ∈ s
  · have hinteger : ∀ n, ¬IntegerSyntax base s n := fun n h => h.slash_not_mem hbase hslash
    have hfloat : ¬FloatSyntax s := fun h => h.slash_not_mem hslash
    rw [Misread, if_pos hslash]
    by_cases hratio : ∀ n d, ¬RatioSyntax base s n d
    · by_cases hhalves : (∀ c ∈ (s.dropWhile (· ≠ '/')).tail, weight c < base) ∧
          ((∃ n, IntegerSyntax base (s.takeWhile (· ≠ '/')) n) ∨
            TakenForFloat L default (s.takeWhile (· ≠ '/')))
      · refine iff_of_false (fun h => ?_) fun h => h ⟨hratio, hhalves⟩
        exact makeNumber_ne_none default hL hlow hbase stream hslash hhalves.1 hhalves.2
          ((h.other hinteger hratio).2.2 hfloat)
      · refine iff_of_true ?_ fun h => hhalves h.2
        rw [makeNumber_eq_none default hL hlow hbase stream hslash hhalves]
        exact recognised_none hinteger hratio
    · refine iff_of_true ⟨fun n h => absurd h (hinteger n), fun n d h => ?_, fun _ h => ?_⟩
        fun h => hratio h.1
      · exact makeNumber_ratio default hL hlow hbase stream h
      · exact absurd h hratio
  · have hratio : ∀ n d, ¬RatioSyntax base s n d := fun n d h => hslash h.slash_mem
    rw [Misread, if_neg hslash, makeNumber, if_neg hslash]
    by_cases hinteger : ∀ n, ¬IntegerSyntax base s n
    · rw [takenForFloat_iff, makeUnslashed_other default hbase hinteger]
      cases hfloat : makeFloat L default (stripPoint s) with
      | none => exact iff_of_true (recognised_none hinteger hratio) fun h => h.2.2 rfl
      | some f =>
        by_cases hsyntax : FloatSyntax s
        · refine iff_of_true ⟨fun n h => absurd h (hinteger n), fun n d h => absurd h (hratio n d),
            fun _ _ => ⟨by simp, by simp, fun h => absurd hsyntax h⟩⟩ fun h => h.2.1 hsyntax
        · refine iff_of_false (fun h => ?_) fun h => h ⟨hinteger, hsyntax, by simp⟩
          cases (h.other hinteger hratio).2.2 hsyntax
    · refine iff_of_true ⟨fun n h => ?_, fun n d h => absurd h (hratio n d), fun h => ?_⟩
        fun h => hinteger h.1
      · obtain ⟨x, hx, hrep, -⟩ := makeUnslashed_integer default hL hlow hbase h
        exact ⟨x, by rw [hx], hrep⟩
      · exact absurd h hinteger

end Strings

/-! ## Tokens with a slash at the end -/

/-- Functions that read digits, and take no float. -/
def digitLibraries : Libraries Unit where
  mpzSetStr s base :=
    let (negative, digits) := skipSign s
    some (if negative then -(digitsValue base digits : ℤ) else digitsValue base digits)
  mpfrSetStr _ _ := none

theorem readsDigits_digitLibraries : ReadsDigits digitLibraries := by
  intro base _ hbase digits h
  have hplain := skipSign_eq .none hbase h
  have hminus := skipSign_eq .minus hbase h
  rw [show Sign.text .none ++ digits = digits from rfl] at hplain
  rw [show Sign.text .minus ++ digits = '-' :: digits from rfl] at hminus
  simp [digitLibraries, hplain, hminus]

theorem recognised_half :
    (ReadsDigits digitLibraries ∧ 2 ≤ 10 ∧ 10 ≤ 36) ∧
      Recognised 10 ['1', '/', '2']
        (makeNumber digitLibraries .singleFloat ['1', '/', '2'] 10 true) := by
  have hone : Digits 10 ['1'] := ⟨by decide, List.all_iff_forall_prop.mp (by decide)⟩
  have htwo : Digits 10 ['2'] := ⟨by decide, List.all_iff_forall_prop.mp (by decide)⟩
  refine ⟨⟨readsDigits_digitLibraries, by decide, by decide⟩,
    (recognised_iff readsDigits_digitLibraries .singleFloat (by decide) (by decide) _ _).mpr ?_⟩
  exact fun h => h.1 _ _ (.mk .none ['1'] ['2'] hone htwo)

/-- `1/` is no number, but an error. -/
theorem not_recognised_slash :
    ¬Recognised 10 ['1', '/'] (makeNumber digitLibraries .singleFloat ['1', '/'] 10 true) := by
  intro h
  have hslash : '/' ∈ ['1', '/'] := by decide
  have hratio : ∀ n d, ¬RatioSyntax 10 ['1', '/'] n d := by
    intro n d hsyntax
    generalize hs : ['1', '/'] = s at hsyntax
    cases hsyntax with
    | mk sign numerator denominator hn hd =>
      have hno : '/' ∉ sign.text ++ numerator := by
        simp [slash_not_mem_sign, hn.slash_not_mem (by decide)]
      have hdrop := (takeWhile_slash (u := denominator) hno).2
      rw [← hs] at hdrop
      exact hd.1 hdrop.symm
  have hnone := (h.other (fun n hn => hn.slash_not_mem (by decide) hslash) hratio).2.2
    fun hfloat => hfloat.slash_not_mem hslash
  have herror : makeNumber digitLibraries .singleFloat ['1', '/'] 10 true =
      .error (.readerError none) := rfl
  rw [herror] at hnone
  cases hnone

end Xcl.Reader
