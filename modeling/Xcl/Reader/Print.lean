import Xcl.Reader.Atom
import Xcl.Reader.NumberExact
import Xcl.Reader.TokenExact

/-!
# Rationals that are printed and read

* **`streamRead_writeToString`**: what is printed reads as the same number.
-/

namespace Xcl.Reader

open Numbers (Rational Mpq Represents)

/-! ## The printers -/

section Printers

variable (mpzGetStr : ℕ → ℤ → List Char) (base : ℕ) (radix : Bool)

/-- `SimpleString::nupcase` -/
def nupcase (s : List Char) : List Char := s.map Char.toUpper

/-- `String::append_long`, of a number that is not negative. -/
def longToString (n : ℕ) : List Char := Nat.toDigits 10 n

/-- The body of `output_fixnum_to_string` and of `Bignum::write_to_string`. -/
def integerToString (z : ℤ) : List Char :=
  let s := if base > 10 then nupcase (mpzGetStr base z) else mpzGetStr base z
  if radix then
    match base with
    | 2 => '#' :: 'b' :: s
    | 8 => '#' :: 'o' :: s
    | 10 => s ++ ['.']
    | 16 => '#' :: 'x' :: s
    | base => '#' :: longToString base ++ 'r' :: s
  else s

def outputFixnumToString (n : ℤ) : List Char := integerToString mpzGetStr base radix n

/-- `Bignum::write_to_string` -/
def Bignum.writeToString (z : ℤ) : List Char := integerToString mpzGetStr base radix z

/-- `write_to_string`, of the numerator and the denominator of a ratio. -/
def Ratio.writePart : Rational → List Char
  | .fixnum n => outputFixnumToString mpzGetStr base false n
  | .bignum z => Bignum.writeToString mpzGetStr base false z
  | .ratio _ => []

/-- `Ratio::write_to_string` -/
def Ratio.writeToString (q : Mpq) : List Char :=
  let s := writePart mpzGetStr base (Numbers.Ratio.numerator q) ++
    '/' :: writePart mpzGetStr base (Numbers.Ratio.denominator q)
  if radix then
    match base with
    | 2 => '#' :: 'b' :: s
    | 8 => '#' :: 'o' :: s
    | 16 => '#' :: 'x' :: s
    | base => '#' :: longToString base ++ 'r' :: s
  else s

/-- `write_to_string`, of a rational number: `base` is *PRINT-BASE*, and `radix` *PRINT-RADIX*. -/
def writeToString : Rational → List Char
  | .fixnum n => outputFixnumToString mpzGetStr base radix n
  | .bignum z => Bignum.writeToString mpzGetStr base radix z
  | .ratio q => Ratio.writeToString mpzGetStr base radix q

end Printers

/-- `mpz_get_str` writes a minus sign and digits, and `mpz_set_str` is its inverse. -/
structure Strings {φ : Type} (mpzGetStr : ℕ → ℤ → List Char) (L : Libraries φ) : Prop where
  reads : ReadsDigits L
  writes : ∀ base, 2 ≤ base → base ≤ 36 → ∀ z, ∃ digits, Digits base digits ∧
    mpzGetStr base z = if z < 0 then '-' :: digits else digits
  inverse : ∀ base, 2 ≤ base → base ≤ 36 → ∀ z, L.mpzSetStr (mpzGetStr base z) base = some z

/-! ## Texts of numbers -/

/-- A text that denotes a number in a base. -/
inductive Spells (base : ℕ) : List Char → Rational → Prop
  | integer {s : List Char} {n : ℤ} {x : Rational} (h : IntegerSyntax base s n)
      (hx : Represents x n) : Spells base s x
  | ratio {s : List Char} {n : ℤ} {d : ℕ} {x : Rational} (h : RatioSyntax base s n d) (hd : d ≠ 0)
      (hx : Represents x (n / d)) : Spells base s x

structure CaseChange (f : Char → Char) : Prop where
  weight : ∀ c, weight (f c) = weight c
  fixes : ∀ c ∈ ['+', '-', '.', '/'], f c = c

section CaseChanges

variable {f : Char → Char}

theorem toNat_toUpper (c : Char) :
    c.toUpper.toNat = if 97 ≤ c.toNat ∧ c.toNat ≤ 122 then c.toNat - 32 else c.toNat := by
  have ha : 'a'.val.toNat = 97 := rfl
  have hz : 'z'.val.toNat = 122 := rfl
  have hoffset : ('A'.val - 'a'.val).toNat = 4294967264 := by decide
  unfold Char.toUpper
  by_cases h : 97 ≤ c.toNat ∧ c.toNat ≤ 122
  · rw [if_pos h, dif_pos (by simp only [UInt32.le_iff_toNat_le, ha, hz]; exact h)]
    show (c.val + ('A'.val - 'a'.val)).toNat = c.val.toNat - 32
    change 97 ≤ c.val.toNat ∧ c.val.toNat ≤ 122 at h
    rw [UInt32.toNat_add, hoffset]
    omega
  · rw [if_neg h, dif_neg (by simp only [UInt32.le_iff_toNat_le, ha, hz]; exact h)]

theorem toNat_toLower (c : Char) :
    c.toLower.toNat = if 65 ≤ c.toNat ∧ c.toNat ≤ 90 then c.toNat + 32 else c.toNat := by
  have hA : 'A'.val.toNat = 65 := rfl
  have hZ : 'Z'.val.toNat = 90 := rfl
  have hoffset : ('a'.val - 'A'.val).toNat = 32 := by decide
  unfold Char.toLower
  by_cases h : 65 ≤ c.toNat ∧ c.toNat ≤ 90
  · rw [if_pos h, dif_pos (by simp only [ge_iff_le, UInt32.le_iff_toNat_le, hA, hZ]; exact h)]
    show (c.val + ('a'.val - 'A'.val)).toNat = c.val.toNat + 32
    change 65 ≤ c.val.toNat ∧ c.val.toNat ≤ 90 at h
    rw [UInt32.toNat_add, hoffset]
    omega
  · rw [if_neg h, dif_neg (by simp only [ge_iff_le, UInt32.le_iff_toNat_le, hA, hZ]; exact h)]

theorem caseChange_id : CaseChange id := ⟨fun _ => rfl, fun _ _ => rfl⟩

theorem caseChange_toUpper : CaseChange Char.toUpper := by
  refine ⟨fun c => ?_, List.all_iff_forall_prop.mp (by decide)⟩
  rw [weight_eq, weight_eq, toNat_toUpper]
  split_ifs <;> omega

theorem caseChange_toLower : CaseChange Char.toLower := by
  refine ⟨fun c => ?_, List.all_iff_forall_prop.mp (by decide)⟩
  rw [weight_eq, weight_eq, toNat_toLower]
  split_ifs <;> omega

theorem caseChange_swapCase : CaseChange swapCase := by
  refine ⟨fun c => ?_, List.all_iff_forall_prop.mp (by decide)⟩
  unfold swapCase
  split_ifs
  · exact caseChange_toLower.weight c
  · exact caseChange_toUpper.weight c
  · rfl

theorem convert_plain (s : List Char) (c : Case) :
    ∃ f, CaseChange f ∧ convert (s.map fun c => (c, false)) c = s.map f := by
  cases c with
  | upcase => exact ⟨_, caseChange_toUpper, by simp [convert]⟩
  | downcase => exact ⟨_, caseChange_toLower, by simp [convert]⟩
  | preserve => exact ⟨_, caseChange_id, by simp [convert, Function.comp_def]⟩
  | invert =>
    rw [convert]
    split_ifs
    · exact ⟨_, caseChange_swapCase, by simp⟩
    · exact ⟨_, caseChange_id, by simp [Function.comp_def]⟩

variable {base : ℕ} {digits : List Char}

theorem Digits.map (hf : CaseChange f) (h : Digits base digits) : Digits base (digits.map f) := by
  refine ⟨by simpa using h.1, fun c hc => ?_⟩
  obtain ⟨d, hd, rfl⟩ := List.mem_map.mp hc
  rw [hf.weight]
  exact h.2 d hd

theorem digitsValue_map (hf : CaseChange f) (digits : List Char) :
    digitsValue base (digits.map f) = digitsValue base digits := by
  simp [digitsValue, List.foldl_map, hf.weight]

theorem Sign.text_map (hf : CaseChange f) (sign : Sign) : sign.text.map f = sign.text := by
  cases sign with
  | none => rfl
  | plus => simp [Sign.text, hf.fixes]
  | minus => simp [Sign.text, hf.fixes]

theorem IntegerSyntax.map (hf : CaseChange f) {s : List Char} {n : ℤ} (h : IntegerSyntax base s n) :
    IntegerSyntax base (s.map f) n := by
  cases h with
  | decimal sign digits h =>
    rw [List.map_append, List.map_append, sign.text_map hf, ← digitsValue_map hf,
      show ['.'].map f = ['.'] by simp [hf.fixes]]
    exact .decimal sign _ (h.map hf)
  | digits sign digits h =>
    rw [List.map_append, sign.text_map hf, ← digitsValue_map hf]
    exact .digits sign _ (h.map hf)

theorem RatioSyntax.map (hf : CaseChange f) {s : List Char} {n : ℤ} {d : ℕ}
    (h : RatioSyntax base s n d) : RatioSyntax base (s.map f) n d := by
  cases h with
  | mk sign numerator denominator hn hd =>
    rw [List.map_append, List.map_append, List.map_cons, sign.text_map hf, hf.fixes '/' (by simp),
      ← digitsValue_map hf numerator, ← digitsValue_map hf denominator]
    exact .mk sign _ _ (hn.map hf) (hd.map hf)

theorem Spells.map (hf : CaseChange f) {s : List Char} {x : Rational} (h : Spells base s x) :
    Spells base (s.map f) x := by
  cases h with
  | integer h hx => exact .integer (h.map hf) hx
  | ratio h hd hx => exact .ratio (h.map hf) hd hx

end CaseChanges

/-! ## The characters of a number -/

section Characters

variable {base : ℕ} {s : List Char} {x : Rational}

def NumberChar (c : Char) : Prop := weight c < 36 ∨ c ∈ ['+', '-', '.', '/']

theorem NumberChar.plain {c : Char} (h : NumberChar c) :
    standardSyntax c = .constituent ∧ checkInvalid c = false := by
  rcases h with h | h
  · have hspace : c.toNat ∉ [8, 9, 10, 12, 13, 32, 127] := by
      intro hmem
      simp only [List.mem_cons, List.not_mem_nil, or_false] at hmem
      rw [weight_eq] at h
      split_ifs at h <;> omega
    have hother : ∀ d ∈ ['"', '\'', '(', ')', ',', ';', Char.ofNat 96, '#', '\\', '|'], c ≠ d := by
      rintro d hd rfl
      have hweight : ∀ d ∈ ['"', '\'', '(', ')', ',', ';', Char.ofNat 96, '#', '\\', '|'],
          weight d = 36 := List.all_iff_forall_prop.mp (by decide)
      rw [hweight c hd] at h
      exact absurd h (lt_irrefl 36)
    simp only [List.mem_cons, List.not_mem_nil, or_false, not_or] at hspace
    simp only [List.forall_mem_cons] at hother
    simp [standardSyntax, checkInvalid, hspace, hother]
  · have hsigns : ∀ c ∈ ['+', '-', '.', '/'],
        standardSyntax c = .constituent ∧ checkInvalid c = false :=
      List.all_iff_forall_prop.mp (by decide)
    exact hsigns c h

theorem Sign.numberChar (sign : Sign) : ∀ c ∈ sign.text, NumberChar c := by
  intro c hc
  refine .inr ?_
  cases sign <;> simp_all [Sign.text]

theorem Digits.numberChar (hbase : base ≤ 36) (h : Digits base s) : ∀ c ∈ s, NumberChar c :=
  fun c hc => .inl (lt_of_lt_of_le (h.2 c hc) hbase)

theorem Spells.numberChar (hbase : base ≤ 36) (h : Spells base s x) : ∀ c ∈ s, NumberChar c := by
  intro c hc
  cases h with
  | integer h hx =>
    cases h with
    | decimal sign digits h =>
      rcases List.mem_append.mp hc with hc | hc
      · rcases List.mem_append.mp hc with hc | hc
        · exact sign.numberChar c hc
        · exact h.numberChar (by decide) c hc
      · exact .inr (by simp_all)
    | digits sign digits h =>
      rcases List.mem_append.mp hc with hc | hc
      · exact sign.numberChar c hc
      · exact h.numberChar hbase c hc
  | ratio h hne hx =>
    cases h with
    | mk sign numerator denominator hn hd =>
      rcases List.mem_append.mp hc with hc | hc
      · rcases List.mem_append.mp hc with hc | hc
        · exact sign.numberChar c hc
        · exact hn.numberChar hbase c hc
      · rcases List.mem_cons.mp hc with rfl | hc
        · exact .inr (by simp)
        · exact hd.numberChar hbase c hc

/-- The character that decides whether a token may be a number. -/
def NumberStart (base : ℕ) (c : Char) : Prop :=
  c ∈ ['+', '-'] ∨ weight c < base ∨ weight c < 10

theorem Digits.start {b : ℕ} (hb : b = base ∨ b = 10) (h : Digits b s) (sign : Sign)
    (rest : List Char) : ∃ c tail, sign.text ++ s ++ rest = c :: tail ∧ NumberStart base c := by
  obtain ⟨c, tail, rfl⟩ := List.exists_cons_of_ne_nil h.1
  cases sign with
  | none =>
    refine ⟨c, tail ++ rest, rfl, .inr ?_⟩
    have hc := h.2 c List.mem_cons_self
    rcases hb with rfl | rfl
    · exact .inl hc
    · exact .inr hc
  | plus => exact ⟨'+', c :: tail ++ rest, rfl, .inl (by simp)⟩
  | minus => exact ⟨'-', c :: tail ++ rest, rfl, .inl (by simp)⟩

theorem Spells.start (h : Spells base s x) : ∃ c tail, s = c :: tail ∧ NumberStart base c := by
  cases h with
  | integer h hx =>
    cases h with
    | decimal sign digits h => exact h.start (.inr rfl) sign ['.']
    | digits sign digits h =>
      have hstart := h.start (.inl rfl) sign []
      rwa [List.append_nil] at hstart
  | ratio h hne hx =>
    cases h with
    | mk sign numerator denominator hn hd => exact hn.start (.inl rfl) sign ('/' :: denominator)

theorem NumberStart.numberChar {c : Char} (h : NumberStart base c) (hbase : base ≤ 36) :
    NumberChar c := by
  rcases h with h | h | h
  · exact .inr (by simp_all; tauto)
  · exact .inl (by omega)
  · exact .inl (by omega)

/-! ## Reading -/

variable {φ : Type} {L : Libraries φ}

theorem Spells.makeNumber (hL : ReadsDigits L) (default : FloatFormat) (hlow : 2 ≤ base)
    (hbase : base ≤ 36) (h : Spells base s x) :
    makeNumber L default s base true = .ok (some (.rational x)) := by
  cases h with
  | integer h hx =>
    obtain ⟨y, hy, hrep, -⟩ := makeUnslashed_integer default hL hlow hbase h
    rw [Reader.makeNumber, if_neg (h.slash_not_mem hbase), hy, hrep.unique hx]
  | ratio h hd hx =>
    have hread := makeNumber_ratio default hL hlow hbase true h
    rw [if_neg hd] at hread
    obtain ⟨y, hy, hrep⟩ := hread
    rw [hy, hrep.unique hx]

variable {α ε : Type} {C : Context α φ ε} {rest : List Char}

theorem NumberStart.maybeNumeric {c : Char} (h : NumberStart base c) (hbase : base ≤ 36) :
    Context.maybeNumeric c base = true := by
  unfold Context.maybeNumeric
  rcases h with h | h | h
  · simp_all
  · by_cases hten : base = 10
    · subst hten
      simp [isDecimal_iff.mpr h]
    · simp [hten, (digitCharP_iff hbase).mpr h]
  · simp [isDecimal_iff.mpr h]

theorem Spells.streamReadAtom (hL : ReadsDigits C.libraries) (hsuppress : C.readSuppress = false)
    (hlow : 2 ≤ base) (hbase : base ≤ 36) (hread : C.readBase = base) {c : Char} {tail : List Char}
    (h : Spells base (c :: tail) x) (hends : Ends C.readtable rest) :
    C.streamReadAtom c (tail ++ rest) = .ok (C.number (.rational x), rest) := by
  have hplain : ∀ d ∈ c :: tail, Plain C.readtable d ∧ checkInvalid d = false := by
    intro d hd
    obtain ⟨hconstituent, hvalid⟩ := (h.numberChar hbase d hd).plain
    exact ⟨.inl hconstituent, hvalid⟩
  obtain ⟨f, hf, hconvert⟩ := convert_plain (c :: tail) C.readtable.readtableCase
  have hnumber := (h.map hf).makeNumber hL C.floatFormat hlow hbase
  have hstart : NumberStart base c := by
    obtain ⟨d, tail', heq, hd⟩ := h.start
    rw [(List.cons.inj heq).1]
    exact hd
  have hrange : ¬(C.readBase < 2 ∨ C.readBase > 36) := by omega
  have hbase' : C.readBase.toNat = base := by rw [hread, Int.toNat_natCast]
  rw [Context.streamReadAtom, streamReadToken_plain hplain hends, hconvert]
  simp only [hsuppress, Bool.false_eq_true, if_false, Option.isNone_none, true_and, if_neg hrange,
    hbase', hstart.maybeNumeric hbase, if_true, hnumber]

theorem Spells.streamReadRadix (hL : ReadsDigits C.libraries) (hsuppress : C.readSuppress = false)
    (hlow : 2 ≤ base) (hbase : base ≤ 36) (h : Spells base s x) (hends : Ends C.readtable rest) :
    C.streamReadRadix (s ++ rest) base = .ok (some (C.number (.rational x)), rest) := by
  have hinside : ∀ c ∈ s, (!C.endsNumber c) = true := by
    intro c hc
    have hconstituent : C.readtable.syntaxType c = .constituent :=
      (h.numberChar hbase c hc).plain.1
    simp [Context.endsNumber, hconstituent]
  have hstop : ∀ c ∈ rest.head?, (!C.endsNumber c) = false := by
    intro c hc
    rcases hends c hc with hc | hc <;> simp [Context.endsNumber, hc]
  have htake : (s ++ rest).takeWhile (fun c => !C.endsNumber c) = s := by
    rw [List.takeWhile_append_of_pos hinside]
    cases rest with
    | nil => simp
    | cons c rest => rw [List.takeWhile_cons_of_neg (by simp [hstop c rfl]), List.append_nil]
  have hdrop : (s ++ rest).dropWhile (fun c => !C.endsNumber c) = rest := by
    rw [List.dropWhile_append_of_pos hinside]
    cases rest with
    | nil => rfl
    | cons c rest => rw [List.dropWhile_cons_of_neg (by simp [hstop c rfl])]
  rw [Context.streamReadRadix, htake, hdrop, hsuppress, h.makeNumber hL C.floatFormat hlow hbase]
  rfl

end Characters

/-! ## What is printed -/

section Printed

variable {φ : Type} {mpzGetStr : ℕ → ℤ → List Char} {L : Libraries φ} {base : ℕ}

theorem Strings.written (h : Strings mpzGetStr L) (hlow : 2 ≤ base) (hbase : base ≤ 36) (z : ℤ) :
    ∃ (sign : Sign) (digits : List Char), Digits base digits ∧
      integerToString mpzGetStr base false z = sign.text ++ digits ∧
      sign.apply (digitsValue base digits) = z ∧ (0 ≤ z → sign = .none) := by
  obtain ⟨digits, hdigits, htext⟩ := h.writes base hlow hbase z
  have hinverse := h.inverse base hlow hbase z
  obtain ⟨hplain, hminus⟩ := h.reads base hlow hbase digits hdigits
  obtain ⟨f, hf, hupcase⟩ : ∃ f, CaseChange f ∧
      integerToString mpzGetStr base false z = (mpzGetStr base z).map f := by
    by_cases hten : base > 10
    · exact ⟨_, caseChange_toUpper, by simp [integerToString, hten, nupcase]⟩
    · exact ⟨_, caseChange_id, by simp [integerToString, hten]⟩
  rw [htext] at hupcase hinverse
  by_cases hz : z < 0
  · rw [if_pos hz] at hupcase hinverse
    refine ⟨.minus, digits.map f, hdigits.map hf, ?_, ?_, fun hnonneg => absurd hz (by omega)⟩
    · rw [hupcase, List.map_cons, hf.fixes '-' (by simp)]
      rfl
    · rw [digitsValue_map hf]
      exact Option.some.inj (hminus.symm.trans hinverse)
  · rw [if_neg hz] at hupcase hinverse
    refine ⟨.none, digits.map f, hdigits.map hf, hupcase, ?_, fun _ => rfl⟩
    rw [digitsValue_map hf]
    exact Option.some.inj (hplain.symm.trans hinverse)

theorem writePart_normalizeZ (z : ℤ) :
    Ratio.writePart mpzGetStr base (Numbers.normalizeZ z) =
      integerToString mpzGetStr base false z := by
  unfold Numbers.normalizeZ
  split_ifs <;> rfl

theorem Strings.spells (h : Strings mpzGetStr L) (hlow : 2 ≤ base) (hbase : base ≤ 36)
    {x : Rational} (hx : x.Canonical) : Spells base (writeToString mpzGetStr base false x) x := by
  have hinteger : ∀ z : ℤ, Represents x z →
      Spells base (integerToString mpzGetStr base false z) x := by
    intro z hz
    obtain ⟨sign, digits, hdigits, htext, rfl, -⟩ := h.written hlow hbase z
    rw [htext]
    exact .integer (.digits sign digits hdigits) hz
  cases x with
  | fixnum n => exact hinteger n ⟨hx, rfl⟩
  | bignum z => exact hinteger z ⟨hx, rfl⟩
  | ratio q =>
    obtain ⟨sign, numerator, hn, hntext, hnvalue, -⟩ := h.written hlow hbase q.num
    obtain ⟨sign', denominator, hd, hdtext, hdvalue, hsign⟩ := h.written hlow hbase q.den
    obtain rfl := hsign (Int.natCast_nonneg q.den)
    have hden : digitsValue base denominator = q.den := Int.ofNat.inj hdvalue
    have htext : writeToString mpzGetStr base false (.ratio q) =
        sign.text ++ numerator ++ '/' :: denominator := by
      show Ratio.writePart mpzGetStr base (Numbers.normalizeZ q.num) ++
        '/' :: Ratio.writePart mpzGetStr base (Numbers.normalizeZ q.den) = _
      rw [writePart_normalizeZ, writePart_normalizeZ, hntext, hdtext]
      rfl
    have hpos := hx.1
    rw [htext]
    refine .ratio (.mk sign numerator denominator hn hd) (by omega) ⟨hx, ?_⟩
    rw [hnvalue, hden]
    rfl

/-- The characters between the sharp sign and the text of the number. -/
def radixMarker : ℕ → List Char
  | 2 => ['b']
  | 8 => ['o']
  | 16 => ['x']
  | base => longToString base ++ ['r']

variable (mpzGetStr base) in
theorem writeToString_radix (x : Rational) :
    (base = 10 ∧ ∃ z, (x = .fixnum z ∨ x = .bignum z) ∧
        writeToString mpzGetStr base true x = integerToString mpzGetStr base false z ++ ['.']) ∨
      writeToString mpzGetStr base true x =
        '#' :: radixMarker base ++ writeToString mpzGetStr base false x := by
  have hinteger : ∀ z, (integerToString mpzGetStr base true z =
        integerToString mpzGetStr base false z ++ ['.'] ∧ base = 10) ∨
      integerToString mpzGetStr base true z =
        '#' :: radixMarker base ++ integerToString mpzGetStr base false z := by
    intro z
    simp only [integerToString, Bool.false_eq_true, if_true, if_false]
    generalize (if base > 10 then nupcase (mpzGetStr base z) else mpzGetStr base z) = s
    split
    · exact .inr rfl
    · exact .inr rfl
    · exact .inl ⟨rfl, rfl⟩
    · exact .inr rfl
    · refine .inr ?_
      simp_all [radixMarker]
  cases x with
  | fixnum n =>
    rcases hinteger n with ⟨h, hten⟩ | h
    · exact .inl ⟨hten, n, .inl rfl, h⟩
    · exact .inr h
  | bignum z =>
    rcases hinteger z with ⟨h, hten⟩ | h
    · exact .inl ⟨hten, z, .inr rfl, h⟩
    · exact .inr h
  | ratio q =>
    refine .inr ?_
    simp only [writeToString, Ratio.writeToString, Bool.false_eq_true, if_true, if_false]
    split
    · rfl
    · rfl
    · rfl
    · simp_all [radixMarker]

end Printed

/-! ## Reading what is printed -/

section Reading

variable {α φ ε : Type} {C : Context α φ ε} {base : ℕ} {x : Rational} {rest : List Char}

theorem streamReadDispatchChar_radixMarker (hlow : 2 ≤ base) (hbase : base ≤ 36)
    (text : List Char) : C.streamReadDispatchChar (-1) (radixMarker base ++ text) =
      C.streamReadRadix text base := by
  interval_cases base <;> rfl

theorem Spells.streamRead (hL : ReadsDigits C.libraries) (hsuppress : C.readSuppress = false)
    (hlow : 2 ≤ base) (hbase : base ≤ 36) (hread : C.readBase = base) {s : List Char}
    (h : Spells base s x) (hends : Ends C.readtable rest) (n : ℕ) :
    C.streamRead (n + 1) (s ++ rest) = some (.ok (C.number (.rational x), rest)) := by
  obtain ⟨c, tail, rfl, hc⟩ := h.start
  have hconstituent : standardSyntax c = .constituent := (hc.numberChar hbase).plain.1
  have hspace : C.isWhitespace c = false := by
    show decide (standardSyntax c = .whitespace) = false
    rw [hconstituent]
    rfl
  have hfunction : C.readerMacroFunction c = none := by
    have hother : ∀ d ∈ [')', '#', '"', '\'', '(', ',', ';', Char.ofNat 96], c ≠ d := by
      rintro d hd rfl
      have hmacros : ∀ d ∈ [')', '#', '"', '\'', '(', ',', ';', Char.ofNat 96],
          standardSyntax d ≠ .constituent := List.all_iff_forall_prop.mp (by decide)
      exact hmacros c hd hconstituent
    simp only [List.forall_mem_cons] at hother
    simp [Context.readerMacroFunction, hother]
  rw [List.cons_append, Context.streamRead, hspace, if_neg Bool.false_ne_true,
    Context.streamProcessChar, hfunction]
  dsimp only
  rw [h.streamReadAtom hL hsuppress hlow hbase hread hends]
  simp [Except.map, hsuppress]

/-- **Rationals survive printing and reading**: in *PRINT-BASE*, or in base ten if *PRINT-RADIX* is
true. -/
theorem streamRead_writeToString {mpzGetStr : ℕ → ℤ → List Char}
    (h : Strings mpzGetStr C.libraries) (hsuppress : C.readSuppress = false) (hx : x.Canonical)
    (hlow : 2 ≤ base) (hbase : base ≤ 36) (radix : Bool)
    (hread : C.readBase = if radix then 10 else base) (hends : Ends C.readtable rest) (n : ℕ) :
    C.streamRead (n + 1) (writeToString mpzGetStr base radix x ++ rest) =
      some (.ok (C.number (.rational x), rest)) := by
  have hspells := h.spells hlow hbase hx
  cases radix with
  | false => exact hspells.streamRead h.reads hsuppress hlow hbase hread hends n
  | true =>
    rcases writeToString_radix mpzGetStr base x with ⟨rfl, z, hz, htext⟩ | htext
    · obtain ⟨sign, digits, hdigits, hwritten, hvalue, -⟩ := h.written hlow hbase z
      have hrep : Represents x (sign.apply (digitsValue 10 digits)) := by
        rw [hvalue]
        rcases hz with rfl | rfl
        · exact ⟨hx, rfl⟩
        · exact ⟨hx, rfl⟩
      rw [htext, hwritten]
      exact (Spells.integer (.decimal sign digits hdigits) hrep).streamRead h.reads hsuppress hlow
        hbase hread hends n
    · have hspace : C.isWhitespace '#' = false := rfl
      have hfunction : C.readerMacroFunction '#' = some (C.streamReadDispatchChar (-1)) := rfl
      rw [htext, List.cons_append, List.cons_append, List.append_assoc, Context.streamRead, hspace,
        if_neg Bool.false_ne_true, Context.streamProcessChar, hfunction]
      dsimp only
      rw [streamReadDispatchChar_radixMarker hlow hbase,
        hspells.streamReadRadix h.reads hsuppress hlow hbase hends]
      simp [hsuppress]

end Reading

/-! ## Strings of digits -/

def digitChar (n : ℕ) : Char := Char.ofNat (if n < 10 then n + 48 else n + 87)

def naturalText (base n : ℕ) : List Char :=
  if n = 0 then ['0'] else (Nat.digits base n).reverse.map digitChar

/-- The strings that `mpz_get_str` makes. -/
def integerText (base : ℕ) (z : ℤ) : List Char :=
  if z < 0 then '-' :: naturalText base z.natAbs else naturalText base z.natAbs

theorem weight_digitChar : ∀ d < 36, weight (digitChar d) = d := by decide

theorem naturalText_spec {base : ℕ} (hlow : 2 ≤ base) (hbase : base ≤ 36) (n : ℕ) :
    Digits base (naturalText base n) ∧ digitsValue base (naturalText base n) = n := by
  unfold naturalText
  by_cases hn : n = 0
  · rw [if_pos hn, hn]
    refine ⟨⟨by simp, fun c hc => ?_⟩, by simp [digitsValue, show weight '0' = 0 from rfl]⟩
    obtain rfl := List.mem_singleton.mp hc
    exact Nat.lt_of_lt_of_le Nat.two_pos hlow
  rw [if_neg hn]
  have hweight : ∀ d ∈ Nat.digits base n, weight (digitChar d) = d ∧ d < base := by
    intro d hd
    have hlt := Nat.digits_lt_base (by omega) hd
    exact ⟨weight_digitChar d (by omega), hlt⟩
  refine ⟨⟨?_, ?_⟩, ?_⟩
  · simpa [Nat.digits_eq_nil_iff_eq_zero] using hn
  · intro c hc
    obtain ⟨d, hd, rfl⟩ := List.mem_map.mp hc
    obtain ⟨hd', hlt⟩ := hweight d (List.mem_reverse.mp hd)
    rwa [hd']
  · have hfold : ∀ l : List ℕ, (∀ d ∈ l, weight (digitChar d) = d) →
        digitsValue base (l.reverse.map digitChar) = Nat.ofDigits base l := by
      intro l hl
      induction l with
      | nil => rfl
      | cons d l ih =>
        rw [List.forall_mem_cons] at hl
        rw [Nat.ofDigits_cons, ← ih hl.2, List.reverse_cons, List.map_append]
        simp [digitsValue, hl.1]
        ring
    rw [hfold _ fun d hd => (hweight d hd).1, Nat.ofDigits_digits]

theorem strings_integerText : Strings integerText digitLibraries := by
  refine ⟨readsDigits_digitLibraries, fun base hlow hbase z => ?_, fun base hlow hbase z => ?_⟩
  · exact ⟨_, (naturalText_spec hlow hbase z.natAbs).1, rfl⟩
  · obtain ⟨hdigits, hvalue⟩ := naturalText_spec hlow hbase z.natAbs
    obtain ⟨hplain, hminus⟩ := readsDigits_digitLibraries base hlow hbase _ hdigits
    unfold integerText
    split_ifs with hz
    · rw [hminus, hvalue]
      congr 1
      omega
    · rw [hplain, hvalue]
      congr 1
      omega

def numberContext : Context (Option (NumberObject Unit)) Unit Empty where
  readtableCase := .upcase
  readSuppress := false
  readBase := 10
  floatFormat := .singleFloat
  libraries := digitLibraries
  nil := none
  number := some
  intern _ := .ok none
  listp x := x.isNone
  functions _ _ := .error .notAList
  dispatchFunctions _ := none

/-- `#x-FF/2` -/
theorem streamRead_hexadecimal :
    (Strings integerText numberContext.libraries ∧ numberContext.readSuppress = false ∧
      (Rational.ratio ⟨-255, 2⟩).Canonical ∧ (2 ≤ 16 ∧ 16 ≤ 36) ∧
      numberContext.readBase = (10 : ℕ) ∧ Ends numberContext.readtable [')']) ∧
    numberContext.streamRead 1
        (writeToString integerText 16 true (.ratio ⟨-255, 2⟩) ++ [')']) =
      some (.ok (some (.rational (.ratio ⟨-255, 2⟩)), [')'])) := by
  have hx : (Rational.ratio ⟨-255, 2⟩).Canonical := ⟨by decide, by decide⟩
  have hends : Ends numberContext.readtable [')'] := by
    intro c hc
    obtain rfl := Option.some.inj hc
    exact .inr rfl
  exact ⟨⟨strings_integerText, rfl, hx, by decide, rfl, hends⟩,
    streamRead_writeToString strings_integerText rfl hx (by decide) (by decide) true rfl hends 0⟩

end Xcl.Reader
