import Xcl.Reader.Number
import Xcl.Reader.Token

/-!
# Atoms, numbers in a radix and characters

* `Context`: what the reader finds in the thread and the readtable, and the functions that it calls;
* `streamReadAtom`: a token becomes a number or a symbol.
-/

namespace Xcl.Reader

/-- The errors of the reader; `signalled` are those of other functions. -/
inductive ReadError (ε : Type)
  | token (e : Error)
  | number (e : NumberError)
  | readBase
  | tooManyDots
  | dotContext
  | notANumber
  | illegalRadix (numarg : Option ℤ)
  | noDispatchFunction (c : Char)
  | unmatchedRightParenthesis
  | nothingBeforeDot
  | notAList
  | signalled (e : ε)
  deriving DecidableEq

/-- What a macro function returns, which may be no value, with the rest of the text. -/
abbrev Values (α ε : Type) := Except (ReadError ε) (Option α × List Char)

/-- The variables of the thread, a readtable with the standard syntax types, and other functions:
`intern` is the end of `stream_read_atom`, `functions` are the macro functions but for those of `)`
and `#`, and `dispatchFunctions` those of `#` with another character than B, O, R and X. -/
structure Context (α φ ε : Type) where
  readtableCase : Case
  readSuppress : Bool
  readBase : ℤ
  floatFormat : FloatFormat
  libraries : Libraries φ
  nil : α
  number : NumberObject φ → α
  intern : Token → Except ε α
  listp : α → Bool
  functions : Char → List Char → Values α ε
  dispatchFunctions : Char → Option (Option ℤ → List Char → Values α ε)

namespace Context

variable {α φ ε : Type} (C : Context α φ ε)

def readtable : Readtable := ⟨standardSyntax, C.readtableCase⟩

def maybeNumeric (c1 : Char) (base : ℕ) : Bool :=
  c1 = '+' || c1 = '-' || c1 = '.' || isDecimal c1 || (base ≠ 10 && digitCharP c1 base)

def streamReadAtom (c1 : Char) (text : List Char) : Except (ReadError ε) (α × List Char) :=
  match streamReadToken C.readtable c1 text with
  | .error e => .error (.token e)
  | .ok (token, rest) =>
    if C.readSuppress then .ok (C.nil, rest)
    else if token.escapes.isNone ∧ (C.readBase < 2 ∨ C.readBase > 36) then .error .readBase
    else
      let value :=
        if token.escapes.isNone ∧ maybeNumeric c1 C.readBase.toNat then
          makeNumber C.libraries C.floatFormat token.string C.readBase.toNat true
        else .ok none
      match value with
      | .error e => .error (.number e)
      | .ok (some x) => .ok (C.number x, rest)
      | .ok none =>
        -- a token that consists solely of dots
        if c1 = '.' ∧ token.escapes.isNone ∧ token.string.tail.all (· = '.') then
          .error (if token.string.length > 1 then .tooManyDots else .dotContext)
        else
          match C.intern token with
          | .error e => .error (.signalled e)
          | .ok x => .ok (x, rest)

def endsNumber (c : Char) : Bool :=
  C.readtable.syntaxType c = .whitespace || C.readtable.syntaxType c = .terminatingMacro

def streamReadRadix (text : List Char) (base : ℕ) : Values α ε :=
  let string := text.takeWhile fun c => !C.endsNumber c
  let rest := text.dropWhile fun c => !C.endsNumber c
  if C.readSuppress then .ok (some C.nil, rest)
  else
    match makeNumber C.libraries C.floatFormat string base true with
    | .error e => .error (.number e)
    | .ok (some x) => .ok (some (C.number x), rest)
    | .ok none => .error .notANumber

/-- `SYS_sharp_r` -/
def sharpR (numarg : Option ℤ) (text : List Char) : Values α ε :=
  match numarg.filter fun radix => 2 ≤ radix ∧ radix ≤ 36 with
  | some radix => C.streamReadRadix text radix.toNat
  | none =>
    if C.readSuppress then .ok (some C.nil, text.dropWhile fun c => !C.endsNumber c)
    else .error (.illegalRadix numarg)

/-- The dispatch functions of `#`, which are kept under the upper-case characters. -/
def dispatchFunction (c : Char) : Option (Option ℤ → List Char → Values α ε) :=
  if c.toUpper = 'B' then some fun _ text => C.streamReadRadix text 2
  else if c.toUpper = 'O' then some fun _ text => C.streamReadRadix text 8
  else if c.toUpper = 'R' then some C.sharpR
  else if c.toUpper = 'X' then some fun _ text => C.streamReadRadix text 16
  else C.dispatchFunctions c.toUpper

/-- `stream_read_dispatch_char`, with the number that has been read. -/
def streamReadDispatchChar : ℤ → List Char → Values α ε
  | _, [] => .error (.token .endOfFile)
  | numarg, c :: text =>
    if isDecimal c then
      let numarg := if numarg < 0 then 0 else numarg
      streamReadDispatchChar (Numbers.toLong (numarg * 10 + (c.toNat - 48))) text
    else
      match C.dispatchFunction c with
      | some function => function (if numarg ≥ 0 then some numarg else none) text
      | none =>
        if C.readSuppress then .ok (none, text) else .error (.noDispatchFunction c)

/-- `reader_macro_function`, of the standard readtable. -/
def readerMacroFunction (c : Char) : Option (List Char → Values α ε) :=
  if c = ')' then some fun _ => .error .unmatchedRightParenthesis
  else if c = '#' then some (C.streamReadDispatchChar (-1))
  else if c ∈ ['"', '\'', '(', ',', ';', Char.ofNat 96] then some (C.functions c)
  else none

def streamProcessChar (c : Char) (text : List Char) : Values α ε :=
  match C.readerMacroFunction c with
  | some function => function text
  | none => (C.streamReadAtom c text).map fun (x, rest) => (some x, rest)

def isWhitespace (c : Char) : Bool := C.readtable.syntaxType c = .whitespace

/-- `stream_read` with an error at the end of the file, as the functions of the reader call it.
Without fuel there is no result: a macro function may give back the text that it has read. -/
def streamRead : ℕ → List Char → Option (Except (ReadError ε) (α × List Char))
  | 0, _ => none
  | _ + 1, [] => some (.error (.token .endOfFile))
  | n + 1, c :: text =>
    if C.isWhitespace c then streamRead n text
    else
      match C.streamProcessChar c text with
      | .error e => some (.error e)
      | .ok (none, rest) => streamRead n rest
      | .ok (some x, rest) => some (.ok (if C.readSuppress then C.nil else x, rest))

end Context

end Xcl.Reader
