import Xcl.Numbers.Exact

/-!
# Tokens that are numbers
-/

namespace Xcl.Reader

open Numbers (Rational Represents InFixnumRange)

inductive FloatFormat
  | shortFloat
  | singleFloat
  | doubleFloat
  | longFloat
  deriving DecidableEq, Repr

/-- `mpz_init_set_str`, where `none` is an error; and `mpfr_set_str` in base ten with the number of
bits, to a float. -/
structure Libraries (φ : Type) where
  mpzSetStr : List Char → ℕ → Option ℤ
  mpfrSetStr : FloatFormat → List Char → Option φ

/-- The objects that `make_number` makes. -/
inductive NumberObject (φ : Type)
  | rational (x : Rational)
  | float (f : φ)

inductive NumberError
  | readerError (message : Option String)
  | divisionByZero
  deriving DecidableEq, Repr

def digitCharP (c : Char) (radix : ℕ) : Bool :=
  if '0' ≤ c then
    let n := c.toNat - 48
    if radix ≤ 10 then n < radix
    else if n < 10 then true
    else if 'A' ≤ c then
      let n := n - 7
      if 10 ≤ n ∧ n < radix then true
      else if 'a' ≤ c then
        let n := n - 32
        10 ≤ n ∧ n < radix
      else false
    else false
  else false

/-- `c >= '0' && c <= '9'` -/
def isDecimal (c : Char) : Bool := '0' ≤ c ∧ c ≤ '9'

/-! ## The syntax of numbers -/

/-- The value of a digit; 36 for a character that is none in any base. -/
def weight (c : Char) : ℕ :=
  if '0' ≤ c ∧ c ≤ '9' then c.toNat - 48
  else if 'A' ≤ c ∧ c ≤ 'Z' then c.toNat - 55
  else if 'a' ≤ c ∧ c ≤ 'z' then c.toNat - 87
  else 36

/-- The number that some digits denote. -/
def digitsValue (base : ℕ) (digits : List Char) : ℕ :=
  digits.foldl (fun n c => n * base + weight c) 0

inductive Sign
  | none
  | plus
  | minus
  deriving DecidableEq, Repr

def Sign.text : Sign → List Char
  | .none => []
  | .plus => ['+']
  | .minus => ['-']

def Sign.apply : Sign → ℕ → ℤ
  | .minus, n => -n
  | _, n => n

def Digits (base : ℕ) (s : List Char) : Prop := s ≠ [] ∧ ∀ c ∈ s, weight c < base

/-- `[sign] decimal-digit+ decimal-point | [sign] digit+` -/
inductive IntegerSyntax (base : ℕ) : List Char → ℤ → Prop
  | decimal (sign : Sign) (digits : List Char) (h : Digits 10 digits) :
    IntegerSyntax base (sign.text ++ digits ++ ['.']) (sign.apply (digitsValue 10 digits))
  | digits (sign : Sign) (digits : List Char) (h : Digits base digits) :
    IntegerSyntax base (sign.text ++ digits) (sign.apply (digitsValue base digits))

/-- `[sign] digit+ / digit+` -/
inductive RatioSyntax (base : ℕ) : List Char → ℤ → ℕ → Prop
  | mk (sign : Sign) (numerator denominator : List Char) (hn : Digits base numerator)
      (hd : Digits base denominator) :
    RatioSyntax base (sign.text ++ numerator ++ '/' :: denominator)
      (sign.apply (digitsValue base numerator)) (digitsValue base denominator)

/-- `exponent-marker [sign] digit+`, or nothing. -/
inductive ExponentSyntax : List Char → Prop
  | none : ExponentSyntax []
  | some (marker : Char) (sign : Sign) (digits : List Char)
      (hmarker : marker ∈ "esfdlESFDL".toList) (h : Digits 10 digits) :
    ExponentSyntax (marker :: sign.text ++ digits)

/-- `[sign] decimal-digit* decimal-point decimal-digit+ [exponent] |
[sign] decimal-digit+ [decimal-point decimal-digit*] exponent` -/
inductive FloatSyntax : List Char → Prop
  | fraction (sign : Sign) (whole fraction exponent : List Char)
      (hwhole : ∀ c ∈ whole, weight c < 10) (hfraction : Digits 10 fraction)
      (h : ExponentSyntax exponent) :
    FloatSyntax (sign.text ++ whole ++ '.' :: fraction ++ exponent)
  | exponent (sign : Sign) (whole point exponent : List Char) (hwhole : Digits 10 whole)
      (hpoint : point = [] ∨ ∃ fraction, point = '.' :: fraction ∧ ∀ c ∈ fraction, weight c < 10)
      (hexponent : exponent ≠ []) (h : ExponentSyntax exponent) :
    FloatSyntax (sign.text ++ whole ++ point ++ exponent)

/-! ## The functions -/

/-- The sign of a number in a C string. -/
def skipSign : List Char → Bool × List Char
  | '-' :: s => (true, s)
  | '+' :: s => (false, s)
  | s => (false, s)

/-- The prefix `0x` that `strtol` takes in base 16. -/
def skipPrefix (base : ℕ) : List Char → List Char
  | '0' :: x :: c :: rest =>
    if base = 16 ∧ (x = 'x' ∨ x = 'X') ∧ weight c < 16 then c :: rest else '0' :: x :: c :: rest
  | s => s

/-- The value of a C string up to the first character that is no digit of the base, as `strtol`
returns it. -/
def strtol (s : List Char) (base : ℕ) : ℤ :=
  let (negative, s) := skipSign (s.dropWhile fun c => c.toNat ∈ [9, 10, 11, 12, 13, 32])
  let n := digitsValue base ((skipPrefix base s).takeWhile fun c => weight c < base)
  max (-2 ^ 63) (min (2 ^ 63 - 1) (if negative then -(n : ℤ) else n))

/-- `strchr("esfdlESFDL", c)`, which finds the end of the string, too. -/
def isExponentMarker (c : Char) : Bool := c ∈ "esfdlESFDL".toList ∨ c = Char.ofNat 0

/-- The scan of `make_float`: the format, and the text for `mpfr_set_str`. -/
def scanFloat (default : FloatFormat) (s : List Char) : Option (FloatFormat × List Char) :=
  match s with
  | [] => none
  | c :: tail =>
    let (sign, s) := if c = '-' ∨ c = '+' then ([c], tail) else ([], s)
    let number := s.takeWhile fun c => c = '.' ∨ isDecimal c
    let s := s.dropWhile fun c => c = '.' ∨ isDecimal c
    let rest (s : List Char) := s.takeWhile fun c => c ≠ Char.ofNat 0
    match s with
    | c :: tail =>
      if isExponentMarker c then
        let type :=
          if c ∈ "sfSF".toList ∨ c = Char.ofNat 0 then .singleFloat
          else if c ∈ "dlDL".toList then .doubleFloat
          else default
        some (type, sign ++ number ++ 'E' :: rest tail)
      else if '.' ∈ number then some (default, sign ++ number ++ rest s)
      else none
    | [] => if '.' ∈ number then some (default, sign ++ number) else none

section MakeNumber

variable {φ : Type} (L : Libraries φ) (default : FloatFormat)

def makeFloat (s : List Char) : Option φ :=
  (scanFloat default s).bind fun (type, text) => L.mpfrSetStr type text

/-- The loops that decide `maybe_integer`, where the only character has to be a digit. -/
def maybeInteger (isDigit : Char → Bool) : List Char → Bool
  | [] => true
  | c :: s => (isDigit c || (s ≠ [] && (c = '-' || c = '+'))) && s.all isDigit

/-- `mpz_init_set_str` does not take a plus sign. -/
def skipPlus : List Char → List Char
  | '+' :: s => s
  | s => s

/-- The part of `make_number` after the loops, for a string of digits. -/
def makeIntegerObject (s : List Char) (base : ℕ) : Option Rational :=
  let n := strtol s base
  if InFixnumRange n then some (.fixnum n)
  else if -2 ^ 63 < n ∧ n < 2 ^ 63 - 1 then some (.bignum n)
  else (L.mpzSetStr (skipPlus s) base).map .bignum

/-- `make_number` for a string without a slash. -/
def makeUnslashed (string : List Char) (base : ℕ) : Option (NumberObject φ) :=
  if string = [] then none
  else
    let (string, base) :=
      if string.getLast? = some '.' then (string.dropLast, 10) else (string, base)
    if string = [] then none
    else if maybeInteger (if base = 10 then isDecimal else (digitCharP · base)) string then
      (makeIntegerObject L string base).map .rational
    else (makeFloat L default string).map .float

/-- `integerp` -/
def NumberObject.asInteger : NumberObject φ → Option Rational
  | .rational (.fixnum n) => some (.fixnum n)
  | .rational (.bignum z) => some (.bignum z)
  | _ => none

/-- `make_number`; `none` is `NULL_VALUE`, and `stream` says whether there is a stream. There is no
slash before the first one, and the characters behind it have to be digits, so that the two calls
for the numerator and the denominator do not find another slash. -/
def makeNumber (string : List Char) (base : ℕ) (stream : Bool) :
    Except NumberError (Option (NumberObject φ)) :=
  if '/' ∈ string then
    let s1 := string.takeWhile (· ≠ '/')
    let s2 := (string.dropWhile (· ≠ '/')).tail
    match makeUnslashed L default s1 base with
    | none => .ok none
    | some numerator =>
      if s2.all (digitCharP · base) then
        match numerator.asInteger,
          (makeUnslashed L default s2 base).bind NumberObject.asInteger with
        | some n, some d =>
          if stream ∧ d = .fixnum 0 then .error (.readerError (some "Division by zero."))
          else
            match n.twoArgSlash d with
            | none => .error .divisionByZero
            | some x => .ok (some (.rational x))
        | _, _ => .error (.readerError none)
      else .ok none
  else .ok (makeUnslashed L default string base)

end MakeNumber

/-! ## What a token should be read as -/

section Specification

variable {φ : Type}

structure Recognised (base : ℕ) (s : List Char) (r : Except NumberError (Option (NumberObject φ))) :
    Prop where
  integer : ∀ n, IntegerSyntax base s n → ∃ x, r = .ok (some (.rational x)) ∧ Represents x n
  ratio : ∀ n d, RatioSyntax base s n d →
    if d = 0 then ∃ e, r = .error e
    else ∃ x, r = .ok (some (.rational x)) ∧ Represents x (n / d)
  other : (∀ n, ¬IntegerSyntax base s n) → (∀ n d, ¬RatioSyntax base s n d) →
    (∀ e, r ≠ .error e) ∧ (∀ x, r ≠ .ok (some (.rational x))) ∧ (¬FloatSyntax s → r = .ok none)

/-- The documented behaviour of `mpz_set_str` on digits. -/
def ReadsDigits (L : Libraries φ) : Prop :=
  ∀ base, 2 ≤ base → base ≤ 36 → ∀ digits, Digits base digits →
    L.mpzSetStr digits base = some (digitsValue base digits : ℤ) ∧
      L.mpzSetStr ('-' :: digits) base = some (-(digitsValue base digits : ℤ))

/-- `mpfr_set_str` takes what `make_float` makes of a token, but for a dot at the end of it. -/
def TakenForFloat (L : Libraries φ) (default : FloatFormat) (s : List Char) : Prop :=
  ∃ type text, scanFloat default (if s.getLast? = some '.' then s.dropLast else s) =
    some (type, text) ∧ L.mpfrSetStr type text ≠ none

/-- A token without a slash that is taken for a float and is none. A token with a slash between a
number and digits of the base, which are a float, an integer with a point, or no digits. -/
def Misread (L : Libraries φ) (default : FloatFormat) (base : ℕ) (s : List Char) : Prop :=
  if '/' ∈ s then
    (∀ n d, ¬RatioSyntax base s n d) ∧
      (∀ c ∈ (s.dropWhile (· ≠ '/')).tail, weight c < base) ∧
      ((∃ n, IntegerSyntax base (s.takeWhile (· ≠ '/')) n) ∨
        TakenForFloat L default (s.takeWhile (· ≠ '/')))
  else (∀ n, ¬IntegerSyntax base s n) ∧ ¬FloatSyntax s ∧ TakenForFloat L default s

end Specification

end Xcl.Reader
