import Mathlib.Data.Char
import Xcl.BitVectors.Growing

/-!
# Tokens

The reader collects the characters of a token in a string and marks those that have been escaped in
a bit vector, which is made when the first escape comes and grows with the string.
-/

namespace Xcl.Reader

open BitVectors (BitVector)

inductive SyntaxType
  | constituent
  | whitespace
  | terminatingMacro
  | nonTerminatingMacro
  | singleEscape
  | multipleEscape
  deriving DecidableEq, Repr

inductive Case
  | upcase
  | downcase
  | invert
  | preserve
  deriving DecidableEq, Repr

/-- What a `Readtable` says about tokens. -/
structure Readtable where
  syntaxType : Char → SyntaxType
  readtableCase : Case

/-- `EndOfFile`, and the `ReaderError` of `check_invalid`. -/
inductive Error
  | endOfFile
  | invalid (c : Char)
  deriving DecidableEq, Repr

/-- A string with its `escapes`; `NULL` is `none`. -/
structure Token where
  string : List Char
  escapes : Option BitVector

/-- The characters that `check_invalid` rejects. -/
def checkInvalid (c : Char) : Bool := c.toNat ∈ [8, 9, 10, 12, 13, 32, 127]

variable (rt : Readtable)

def streamReadMultipleEscape : List Char → List Char → Except Error (List Char × List Char)
  | _, [] => .error .endOfFile
  | string, c :: text =>
    if rt.syntaxType c = .singleEscape then
      match text with
      | [] => .error .endOfFile
      | n :: text => streamReadMultipleEscape (string ++ [n]) text
    else if rt.syntaxType c = .multipleEscape then .ok (string, text)
    else streamReadMultipleEscape (string ++ [c]) text

/-- `escapes != NULL && escapes->get_bit(i)` -/
def escapedAt (escapes : Option BitVector) (i : ℕ) : Bool := escapes.any fun v => v.getBit i

inductive LetterCase
  | lower
  | upper
  deriving DecidableEq, Repr

/-- The first loop of `invert`, from index `i` on: there are unescaped letters of both cases. -/
def mixedCase (escapes : Option BitVector) : ℕ → Option LetterCase → List Char → Bool
  | _, _, [] => false
  | i, state, c :: string =>
    if escapedAt escapes i then mixedCase escapes (i + 1) state string
    else if c.isUpper then
      if state = some .lower then true else mixedCase escapes (i + 1) (some .upper) string
    else if c.isLower then
      if state = some .upper then true else mixedCase escapes (i + 1) (some .lower) string
    else mixedCase escapes (i + 1) state string

/-- The letter in the other case. -/
def swapCase (c : Char) : Char :=
  if c.isUpper then c.toLower else if c.isLower then c.toUpper else c

def invert (string : List Char) (escapes : Option BitVector) : List Char :=
  if mixedCase escapes 0 none string then string
  else string.mapIdx fun i c => if escapedAt escapes i then c else swapCase c

/-- What is appended to the string for an unescaped character. -/
def Case.apply : Case → Char → Char
  | .upcase, c => c.toUpper
  | .downcase, c => c.toLower
  | _, c => c

/-- The bits from `begin` to `stop` are set, in a new bit vector or one that has grown. -/
def mark (escapes : Option BitVector) (begin stop : ℕ) : BitVector :=
  (List.range' begin (stop - begin)).foldl BitVector.setBit
    (match escapes with
    | none => .new stop
    | some v => v.ensureCapacity stop)

/-- The loop of `stream_read_token`. Every round takes a character of the text, so that
`text.length + 1` rounds are enough. -/
def readTokenLoop : ℕ → Token → List Char → Except Error (Token × List Char)
  | 0, token, text => .ok (token, text)
  | _ + 1, token, [] => .ok (token, [])
  | n + 1, token, c :: text =>
    match rt.syntaxType c with
    | .whitespace | .terminatingMacro => .ok (token, c :: text)
    | .multipleEscape => do
      let (string, text) ← streamReadMultipleEscape rt [] text
      let string := token.string ++ string
      readTokenLoop n ⟨string, some (mark token.escapes token.string.length string.length)⟩ text
    | .singleEscape =>
      match text with
      | [] => .error .endOfFile
      | c :: text =>
        let string := token.string ++ [c]
        readTokenLoop n ⟨string, some (mark token.escapes (string.length - 1) string.length)⟩ text
    | _ =>
      if checkInvalid c then .error (.invalid c)
      else readTokenLoop n ⟨token.string ++ [rt.readtableCase.apply c], token.escapes⟩ text

/-- The first character of a token, which `stream_read_token` is called with. -/
def readFirst (c1 : Char) (text : List Char) : Except Error (Token × List Char) :=
  match rt.syntaxType c1 with
  | .multipleEscape => do
    let (string, text) ← streamReadMultipleEscape rt [] text
    return (⟨string, some ((BitVector.new string.length).fill true)⟩, text)
  | .singleEscape =>
    match text with
    | [] => .error .endOfFile
    | n :: text => .ok (⟨[n], some ((BitVector.new 1).setBit 0)⟩, text)
  | _ =>
    if checkInvalid c1 then .error (.invalid c1)
    else .ok (⟨[rt.readtableCase.apply c1], none⟩, text)

/-- The end of `stream_read_token`. -/
def Token.finish (token : Token) : Token :=
  let escapes := token.escapes.map fun v => v.ensureCapacity token.string.length
  ⟨if rt.readtableCase = .invert then invert token.string escapes else token.string, escapes⟩

def streamReadToken (c1 : Char) (text : List Char) : Except Error (Token × List Char) := do
  let (token, text) ← readFirst rt c1 text
  let (token, text) ← readTokenLoop rt (text.length + 1) token text
  return (token.finish rt, text)

/-- The syntax types that `Readtable::initialize` sets. -/
def standardSyntax (c : Char) : SyntaxType :=
  if c.toNat ∈ [9, 10, 12, 13, 32] then .whitespace
  else if c ∈ ['"', '\'', '(', ')', ',', ';', Char.ofNat 96] then .terminatingMacro
  else if c = '#' then .nonTerminatingMacro
  else if c = '\\' then .singleEscape
  else if c = '|' then .multipleEscape
  else .constituent

def standardReadtable : Readtable := ⟨standardSyntax, .upcase⟩

/-! ## The text of a token -/

inductive Inside
  | char (c : Char)
  | single (escape c : Char)

/-- A part of a token. -/
inductive Piece
  | plain (c : Char)
  | single (escape c : Char)
  | multiple (start : Char) (inside : List Inside) (stop : Char)

namespace Inside

def text : Inside → List Char
  | .char c => [c]
  | .single escape c => [escape, c]

def read : Inside → Char
  | .char c => c
  | .single _ c => c

def Valid : Inside → Prop
  | .char c => rt.syntaxType c ≠ .singleEscape ∧ rt.syntaxType c ≠ .multipleEscape
  | .single escape _ => rt.syntaxType escape = .singleEscape

end Inside

/-- A character that stands for itself in a token. -/
def Plain (c : Char) : Prop :=
  rt.syntaxType c = .constituent ∨ rt.syntaxType c = .nonTerminatingMacro

namespace Piece

def text : Piece → List Char
  | .plain c => [c]
  | .single escape c => [escape, c]
  | .multiple start inside stop => start :: inside.flatMap Inside.text ++ [stop]

/-- The characters, each with the flag that says that it has been escaped. -/
def read : Piece → List (Char × Bool)
  | .plain c => [(c, false)]
  | .single _ c => [(c, true)]
  | .multiple _ inside _ => inside.map fun x => (x.read, true)

def IsEscape : Piece → Prop
  | .plain _ => False
  | _ => True

def Valid : Piece → Prop
  | .plain c => Plain rt c ∧ checkInvalid c = false
  | .single escape _ => rt.syntaxType escape = .singleEscape
  | .multiple start inside stop => rt.syntaxType start = .multipleEscape ∧
      (∀ x ∈ inside, x.Valid rt) ∧ rt.syntaxType stop = .multipleEscape

end Piece

def textOf (pieces : List Piece) : List Char := pieces.flatMap Piece.text

def IsToken (text : List Char) : Prop :=
  ∃ pieces, pieces ≠ [] ∧ (∀ p ∈ pieces, p.Valid rt) ∧ text = textOf pieces

/-- What the readtable case makes of the characters. Those that have been escaped stay; `:INVERT`
changes the others only if all letters among them have one case. -/
def convert (chars : List (Char × Bool)) : Case → List Char
  | .upcase => chars.map fun x => if x.2 then x.1 else x.1.toUpper
  | .downcase => chars.map fun x => if x.2 then x.1 else x.1.toLower
  | .preserve => chars.map Prod.fst
  | .invert =>
    if (∀ x ∈ chars, x.2 = false → x.1.isLower = false) ∨
        (∀ x ∈ chars, x.2 = false → x.1.isUpper = false) then
      chars.map fun x => if x.2 then x.1 else swapCase x.1
    else chars.map Prod.fst

inductive Unterminated : List Char → Prop
  | single (escape : Char) (h : rt.syntaxType escape = .singleEscape) : Unterminated [escape]
  | multiple (start : Char) (inside : List Inside) (h : rt.syntaxType start = .multipleEscape)
      (hinside : ∀ x ∈ inside, x.Valid rt) : Unterminated (start :: inside.flatMap Inside.text)
  | both (start : Char) (inside : List Inside) (escape : Char)
      (h : rt.syntaxType start = .multipleEscape) (hinside : ∀ x ∈ inside, x.Valid rt)
      (hescape : rt.syntaxType escape = .singleEscape) :
      Unterminated (start :: inside.flatMap Inside.text ++ [escape])

/-- The token ends before a delimiter or at the end of the text. -/
def Ends (rest : List Char) : Prop :=
  ∀ c ∈ rest.head?, rt.syntaxType c = .whitespace ∨ rt.syntaxType c = .terminatingMacro

structure ReadAs (pieces : List Piece) (token : Token) : Prop where
  string : token.string = convert (pieces.flatMap Piece.read) rt.readtableCase
  null : token.escapes = none ↔ ∀ p ∈ pieces, ¬ p.IsEscape
  bits : ∀ v, token.escapes = some v → ∀ i (hi : i < (pieces.flatMap Piece.read).length),
    v.getBit i = ((pieces.flatMap Piece.read).get ⟨i, hi⟩).2

/-- **A token is read exactly**: the longest one at the beginning of the text is taken. An error is
signalled where the text ends in an escape and at an invalid character. -/
def Exact (text : List Char) : Except Error (Token × List Char) → Prop
  | .ok (token, rest) => ∃ pieces, pieces ≠ [] ∧ (∀ p ∈ pieces, p.Valid rt) ∧
      text = textOf pieces ++ rest ∧ Ends rt rest ∧
      (∀ longer, IsToken rt longer → longer <+: text → longer.length ≤ (textOf pieces).length) ∧
      ReadAs rt pieces token
  | .error .endOfFile => ∃ pieces rest, (∀ p ∈ pieces, p.Valid rt) ∧
      text = textOf pieces ++ rest ∧ Unterminated rt rest
  | .error (.invalid c) => ∃ pieces rest, (∀ p ∈ pieces, p.Valid rt) ∧
      text = textOf pieces ++ c :: rest ∧ Plain rt c ∧ checkInvalid c = true

end Xcl.Reader
