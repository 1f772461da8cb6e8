import Mathlib.Tactic

/-!
# Constants of compiled files

`dump-form` writes the forms of a compiled file as text, and the fasl readtable reads them back.
The printed representation of an atom that is neither a vector nor an uninterned symbol is a
parameter, and so is the part of the reader that reads it.

* `Object`: the forms, over a type of atoms and a type of uninterned symbols;
* `dumpObject`, `dumpFile`: the writer.
-/

namespace Xcl.DumpForm

/-! ## Forms -/

/-- Forms without sharing. `A` are the symbols, numbers, characters, strings and bit vectors, `S`
the identities of the uninterned symbols. The vectors are told apart by their element type. -/
inductive Object (A S : Type)
  | atom (a : A)
  | uninterned (s : S)
  | cons (car cdr : Object A S)
  | vector (elements : List (Object A S))
  | vectorUb8 (elements : List UInt8)
  | vectorUb16 (elements : List UInt16)
  | vectorUb32 (elements : List UInt32)

/-- The atoms, as the printer and the reader treat them. `read` is the part of the reader that
does not belong to conses, vectors and uninterned symbols. -/
structure Atoms (A : Type) where
  nil : A
  quote : A
  integer : ℕ → A
  print : A → List Char
  read : List Char → Option (A × List Char)

section Writer

variable {A S : Type} [DecidableEq A] (atoms : Atoms A) (name : S → List Char) (upcase : Bool)

/-! ## Names of uninterned symbols -/

def formFeed : Char := Char.ofNat 12

/-- The characters that `needs_escape` looks for when the readtable case is `:upcase`. `strchr`
also finds the terminating null. -/
def isSpecial (c : Char) : Bool :=
  c ∈ ['(', ')', ',', '|', '\\', Char.ofNat 96, '\'', '"', ';', ':', Char.ofNat 0] ||
    c ∈ [' ', '\t', '\n', '\r'] || c.isLower

/-- `needs_escape` with `*print-base*` 10. -/
def needsEscape (s : List Char) : Bool :=
  s == [] || s.head? == some '#' || s.any isSpecial || s.all Char.isDigit || s.all (· == '.')

/-- The characters between the bars of `multiple_escape`. -/
def escapeChars : List Char → List Char
  | [] => []
  | c :: s => if c = '|' ∨ c = '\\' then '\\' :: c :: escapeChars s else c :: escapeChars s

def multipleEscape (s : List Char) : List Char := '|' :: escapeChars s ++ ['|']

/-- `Symbol::write_to_string` of an uninterned symbol, with `*print-readably*` and `*print-fasl*`.
`upcase` says that `*print-case*` and the case of the current readtable are `:upcase`. -/
def writeUninterned (s : List Char) : List Char :=
  if upcase then '#' :: '$' :: (if needsEscape s then multipleEscape s else s)
  else '#' :: ':' :: multipleEscape s

/-! ## The writer -/

/-- `write_char` on `_charpos`, for each character of a text. -/
def charposAfter (charpos : ℕ) (text : List Char) : ℕ :=
  text.foldl (fun n c => if c = '\n' then 0 else n + 1) charpos

/-- The space between two elements, with a line break after column 80. -/
def separator (charpos : ℕ) : List Char := if charpos > 80 then ['\n', ' '] else [' ']

/-- `quoted-form-p` of a cons, with the quoted object. -/
def quotedForm : Object A S → Object A S → Option (Object A S)
  | .atom q, .cons x (.atom n) => if q = atoms.quote ∧ n = atoms.nil then some x else none
  | _, _ => none

theorem quotedForm_eq_some {car cdr x : Object A S} (h : quotedForm atoms car cdr = some x) :
    car = .atom atoms.quote ∧ cdr = .cons x (.atom atoms.nil) := by
  unfold quotedForm at h
  split at h
  · split at h
    · rename_i hq
      rw [hq.1, hq.2]
      cases h
      exact ⟨rfl, rfl⟩
    · cases h
  · cases h

/-- The length of a vector and the character after it. -/
def vectorHead (n : ℕ) (c : Char) : List Char := '#' :: Nat.toDigits 10 n ++ [c]

/-- The elements of a vector of integers. -/
def dumpIntegers : List ℕ → ℕ → List Char
  | [], _ => []
  | [n], _ => atoms.print (atoms.integer n)
  | n :: m :: ns, charpos =>
    let text := atoms.print (atoms.integer n)
    let sep := separator (charposAfter charpos text)
    text ++ sep ++ dumpIntegers (m :: ns) (charposAfter charpos (text ++ sep))

/-- `dump-vector` of a vector of integers that are not bytes. -/
def dumpVectorIntegers (ns : List ℕ) (charpos : ℕ) : List Char :=
  let head := vectorHead ns.length '('
  head ++ dumpIntegers atoms ns (charposAfter charpos head) ++ [')']

mutual

/-- `dump-object`, from a column of the stream. -/
def dumpObject : Object A S → ℕ → List Char
  | .atom a, _ => atoms.print a
  | .uninterned s, _ => writeUninterned upcase (name s)
  | .cons car cdr, charpos =>
    match h : quotedForm atoms car cdr with
    | some x =>
      have : sizeOf x < sizeOf cdr := by
        rw [(quotedForm_eq_some atoms h).2]
        simp
      '\'' :: dumpObject x (charpos + 1)
    | none =>
      let text := dumpObject car (charpos + 1)
      '(' :: text ++ dumpTail cdr (charposAfter (charpos + 1) text) ++ [')']
  | .vector elements, charpos =>
    let head := vectorHead elements.length '('
    head ++ dumpElements elements (charposAfter charpos head) ++ [')']
  | .vectorUb8 elements, _ =>
    vectorHead elements.length '%' ++ elements.map fun b => Char.ofNat b.toNat
  | .vectorUb16 elements, charpos => dumpVectorIntegers atoms (elements.map (·.toNat)) charpos
  | .vectorUb32 elements, charpos => dumpVectorIntegers atoms (elements.map (·.toNat)) charpos
termination_by o => (sizeOf o, 0)

/-- The loop of `dump-cons`, after the car of a cons. -/
def dumpTail : Object A S → ℕ → List Char
  | .cons car cdr, charpos =>
    let sep := separator charpos
    let text := dumpObject car (charposAfter charpos sep)
    sep ++ text ++ dumpTail cdr (charposAfter charpos (sep ++ text))
  | .atom a, charpos =>
    if a = atoms.nil then []
    else
      let sep := separator charpos ++ ['.', ' ']
      sep ++ dumpObject (.atom a) (charposAfter charpos sep)
  | tail, charpos =>
    let sep := separator charpos ++ ['.', ' ']
    sep ++ dumpObject tail (charposAfter charpos sep)
termination_by o => (sizeOf o, 1)

/-- The loop of `dump-vector`. -/
def dumpElements : List (Object A S) → ℕ → List Char
  | [], _ => []
  | [x], charpos => dumpObject x charpos
  | x :: y :: xs, charpos =>
    let text := dumpObject x charpos
    let sep := separator (charposAfter charpos text)
    text ++ sep ++ dumpElements (y :: xs) (charposAfter charpos (text ++ sep))
termination_by l => (sizeOf l, 1)

end

/-- `dump-top-level-form` of each form. -/
def dumpFile : List (Object A S) → ℕ → List Char
  | [], _ => []
  | form :: forms, charpos =>
    let text := dumpObject atoms name upcase form charpos ++ ['\n']
    text ++ dumpFile forms (charposAfter charpos text)

end Writer

/-! ## The reader -/

/-- The whitespace of the fasl readtable. -/
def isWhitespace (c : Char) : Bool := c ∈ ['\t', '\n', formFeed, '\r', ' ']

/-- The terminating macro characters of the fasl readtable. -/
def isTerminating (c : Char) : Bool := c ∈ ['"', '\'', '(', ')', ',', ';', Char.ofNat 96]

def isDelimiter (c : Char) : Bool := isTerminating c || isWhitespace c

/-- The symbols that the reader has made, with their names; the flag says that the symbol is in
the anonymous package of the file. A symbol is known by its place. -/
abbrev Table := List (List Char × Bool)

/-- A result of the reader, with the rest of the text. -/
abbrev Result (α : Type) := Option (α × List Char × Table)

/-- `stream_read_symbol`: the name and the rest of the text. `escaped` is the state inside of
`stream_read_multiple_escape`. -/
def streamReadSymbol : Bool → List Char → Option (List Char × List Char)
  | false, [] => some ([], [])
  | true, [] => none
  | false, ['\\'] => none
  | true, ['\\'] => none
  | escaped, '\\' :: c :: rest => (streamReadSymbol escaped rest).map fun (s, r) => (c :: s, r)
  | escaped, '|' :: rest => streamReadSymbol (!escaped) rest
  | false, c :: rest =>
    if isWhitespace c || isTerminating c then some ([], c :: rest)
    else (streamReadSymbol false rest).map fun (s, r) => (c.toUpper :: s, r)
  | true, c :: rest => (streamReadSymbol true rest).map fun (s, r) => (c :: s, r)

/-- `Package::intern` in the anonymous package: the place of the symbol. -/
def internAnonymous (s : List Char) (table : Table) : ℕ × Table :=
  if (s, true) ∈ table then (table.idxOf (s, true), table)
  else (table.length, table ++ [(s, true)])

def makeSymbol (s : List Char) (table : Table) : ℕ × Table :=
  (table.length, table ++ [(s, false)])

/-- `stream_read_binary_data`. A byte after the end of the file is -1. -/
def streamReadBinaryData : ℕ → List Char → List UInt8 × List Char
  | 0, text => ([], text)
  | n + 1, [] => (255 :: (streamReadBinaryData n []).1, [])
  | n + 1, c :: text =>
    let (bytes, rest) := streamReadBinaryData n text
    (UInt8.ofNat c.toNat :: bytes, rest)

section Reader

variable {A : Type} [DecidableEq A] (atoms : Atoms A)

/-- The list of the elements in front of a tail; the elements come in reverse order. -/
def listOf (acc : List (Object A ℕ)) (tail : Object A ℕ) : Object A ℕ :=
  acc.foldl (fun l x => .cons x l) tail

def properElements : Object A ℕ → Option (List (Object A ℕ))
  | .cons x l => (properElements l).map (x :: ·)
  | .atom a => if a = atoms.nil then some [] else none
  | _ => none

/-- `stream_read`: the whitespace is skipped. -/
def streamRead (processChar : Char → List Char → Table → Result (Object A ℕ))
    (text : List Char) (table : Table) : Result (Object A ℕ) :=
  match text.dropWhile isWhitespace with
  | [] => none
  | c :: rest => processChar c rest table

/-- The end of `stream_read_vector`: the last object fills the rest of the vector, and more
objects than elements are an error. -/
def fillVector (size : ℕ) (acc : List (Object A ℕ)) : Option (Object A ℕ) :=
  if acc.length ≤ size then
    some (.vector (acc.reverse ++
      List.replicate (size - acc.length) (acc.head?.getD (.atom atoms.nil))))
  else none

mutual

/-- `stream_process_char` with the fasl readtable. -/
def streamProcessChar : ℕ → Char → List Char → Table → Result (Object A ℕ)
  | 0, _, _, _ => none
  | fuel + 1, c, text, table =>
    if c = '(' then streamReadList fuel text table [] (.atom atoms.nil)
    else if c = '\'' then
      (streamRead (streamProcessChar fuel) text table).map fun (x, rest, table) =>
        (.cons (.atom atoms.quote) (.cons x (.atom atoms.nil)), rest, table)
    else if c = ')' then none
    else if c = '#' then streamReadDispatchChar fuel text table
    else (atoms.read (c :: text)).map fun (a, rest) => (.atom a, rest, table)

/-- `stream_read_dispatch_char` after the sharp sign. -/
def streamReadDispatchChar : ℕ → List Char → Table → Result (Object A ℕ)
  | 0, _, _ => none
  | fuel + 1, text, table =>
    let digits := text.takeWhile Char.isDigit
    match text.dropWhile Char.isDigit with
    | [] => none
    | c :: rest =>
      if c = '$' then
        (streamReadSymbol false rest).map fun (s, rest) =>
          let (i, table) := internAnonymous s table
          (.uninterned i, rest, table)
      else if c = ':' then
        (streamReadSymbol false rest).map fun (s, rest) =>
          let (i, table) := makeSymbol s table
          (.uninterned i, rest, table)
      else if c = '%' then
        if digits = [] then none
        else
          let (bytes, rest) := streamReadBinaryData (Nat.ofDigitChars 10 digits 0) rest
          some (.vectorUb8 bytes, rest, table)
      else if c = '(' then
        if digits = [] then
          (streamReadList fuel rest table [] (.atom atoms.nil)).bind fun (l, rest, table) =>
            (properElements atoms l).map fun elements => (.vector elements, rest, table)
        else streamReadVector fuel (Nat.ofDigitChars 10 digits 0) rest table []
      else (atoms.read ('#' :: text)).map fun (a, rest) => (.atom a, rest, table)

/-- `stream_read_list`: `acc` are the objects that were read, `tail` the object after a dot. -/
def streamReadList :
    ℕ → List Char → Table → List (Object A ℕ) → Object A ℕ → Result (Object A ℕ)
  | 0, _, _, _, _ => none
  | fuel + 1, text, table, acc, tail =>
    match text.dropWhile isWhitespace with
    | [] => none
    | c :: rest =>
      if c = ')' then some (listOf acc tail, rest, table)
      else if c = '.' ∧ rest = [] then none
      else if c = '.' ∧ rest.head?.any isDelimiter then
        if acc = [] then none
        else
          (streamRead (streamProcessChar fuel) rest table).bind fun (x, rest, table) =>
            streamReadList fuel rest table acc x
      else
        (streamProcessChar fuel c rest table).bind fun (x, rest, table) =>
          streamReadList fuel rest table (x :: acc) (.atom atoms.nil)

def streamReadVector :
    ℕ → ℕ → List Char → Table → List (Object A ℕ) → Result (Object A ℕ)
  | 0, _, _, _, _ => none
  | fuel + 1, size, text, table, acc =>
    match text.dropWhile isWhitespace with
    | [] => none
    | c :: rest =>
      if c = ')' then (fillVector atoms size acc).map fun v => (v, rest, table)
      else if c = '.' ∧ rest.head?.all isDelimiter then none
      else
        (streamProcessChar fuel c rest table).bind fun (x, rest, table) =>
          streamReadVector fuel size rest table (x :: acc)

end

/-- The loop of `fasl_load_stream`: the forms of a text and the symbols that were made. -/
def readForms : ℕ → List Char → Table → Option (List (Object A ℕ) × Table)
  | 0, _, _ => none
  | fuel + 1, text, table =>
    match text.dropWhile isWhitespace with
    | [] => some ([], table)
    | c :: rest =>
      (streamProcessChar atoms fuel c rest table).bind fun (x, rest, table) =>
        (readForms fuel rest table).map fun (xs, table) => (x :: xs, table)

/-- A file is read with an empty anonymous package. Every call of the reader takes a character. -/
def readFile (text : List Char) : Option (List (Object A ℕ) × Table) :=
  readForms atoms (text.length + 2) text []

end Reader

/-! ## Similar forms -/

section Similar

variable {A S T : Type}

mutual

/-- The form with other uninterned symbols. -/
def Object.map (f : S → T) : Object A S → Object A T
  | .atom a => .atom a
  | .uninterned s => .uninterned (f s)
  | .cons car cdr => .cons (car.map f) (cdr.map f)
  | .vector elements => .vector (mapList f elements)
  | .vectorUb8 elements => .vectorUb8 elements
  | .vectorUb16 elements => .vectorUb16 elements
  | .vectorUb32 elements => .vectorUb32 elements

def mapList (f : S → T) : List (Object A S) → List (Object A T)
  | [] => []
  | o :: os => o.map f :: mapList f os

end

mutual

/-- The uninterned symbols of a form, in the order in which they are written. -/
def Object.symbols : Object A S → List S
  | .atom _ => []
  | .uninterned s => [s]
  | .cons car cdr => car.symbols ++ cdr.symbols
  | .vector elements => symbolsList elements
  | .vectorUb8 _ => []
  | .vectorUb16 _ => []
  | .vectorUb32 _ => []

def symbolsList : List (Object A S) → List S
  | [] => []
  | o :: os => o.symbols ++ symbolsList os

end

/-- The forms `read`, whose symbols have their names in `table`, are similar to `forms`: the same
up to a one-to-one correspondence of the uninterned symbols, which keeps the names. -/
def Similar (name : S → List Char) (table : Table) (forms : List (Object A S))
    (read : List (Object A ℕ)) : Prop :=
  ∃ f : S → ℕ, Set.InjOn f {s | s ∈ symbolsList forms} ∧ read = mapList f forms ∧
    ∀ s ∈ symbolsList forms, table[f s]?.map Prod.fst = some (name s)

def RoundTrip [DecidableEq A] (atoms : Atoms A) (name : S → List Char) (upcase : Bool)
    (charpos : ℕ) (forms : List (Object A S)) : Prop :=
  ∃ read table, readFile atoms (dumpFile atoms name upcase forms charpos) = some (read, table) ∧
    Similar name table forms read

end Similar

end Xcl.DumpForm
