import Mathlib.Data.List.Basic

/-!
# Pathnames on Unix

`Pathname.cpp`: the constructor from a namestring, the constructor from components, and `namestring`
of a physical pathname.
-/

namespace Xcl.Pathnames

abbrev Text := List Char

/-- What a component of a pathname may be. -/
inductive Value
  | nil
  | string (s : Text)
  | absolute
  | relative
  | up
  | wild
  | wildInferiors
  | other (x : ℕ)
deriving DecidableEq, Repr

structure Pathname where
  host : Value := .nil
  device : Value := .nil
  /-- `NIL` is the empty list. -/
  directory : List Value := []
  name : Value := .nil
  type : Value := .nil
  version : Value := .nil
  /-- `_namestring`, `NULL` until it is known. -/
  cached : Option Text := none
deriving DecidableEq, Repr

/-! ## Reading a namestring -/

def lastIndexOf (c : Char) : Text → Option ℕ
  | [] => none
  | x :: s =>
    match lastIndexOf c s with
    | some i => some (i + 1)
    | none => if x = c then some 0 else none

/-- What the inner loop of `parse_directory` reads each time: up to a separator or to the end. -/
def tokens : Text → List Text
  | [] => []
  | c :: s =>
    if c = '/' then [] :: tokens s
    else
      match tokens s with
      | [] => [[c]]
      | token :: rest => (c :: token) :: rest

/-- The outer loop of `parse_directory`; `result` is in reverse. -/
def pushToken (result : List Value) (token : Text) : List Value :=
  if token = ['*'] then .wild :: result
  else if token = ['*', '*'] then .wildInferiors :: result
  else if token = ['.', '.'] then
    match result with
    | .string _ :: rest => rest
    | _ => .up :: result
  else .string token :: result

def parseDirectory (s : Text) : List Value :=
  if s = ['/'] then [.absolute]
  else if s.head? = some '/' then ((tokens s.tail).foldl pushToken [.absolute]).reverse
  else ((tokens s).foldl pushToken [.relative]).reverse

/-- The home directory with a separator at its end. -/
def withSeparator (home : Text) : Text :=
  if home.getLast? = some '/' then home else home ++ ['/']

/-- `~` and `~/` are replaced by `$HOME`, if that is there and not empty. -/
def expandHome (home : Option Text) (s : Text) : Text :=
  if s.head? = some '~' ∧ (s.length = 1 ∨ s[1]? = some '/') then
    match home with
    | none => s
    | some h => if h = [] then s else withSeparator h ++ s.drop 2
  else s

/-- The directory part, to the last separator, and the rest. A rest of `..` is a directory. -/
def splitDirectory (s : Text) : Option Text × Text :=
  match lastIndexOf '/' s with
  | none => (none, s)
  | some i =>
    if s.drop (i + 1) = ['.', '.'] then (some (s.take (i + 1) ++ s.drop (i + 1)), [])
    else (some (s.take (i + 1)), s.drop (i + 1))

def component : Option Text → Value
  | none => .nil
  | some n => if n = ['*'] then .wild else .string n

/-- Name and type. -/
def splitName (s : Text) : Value × Value :=
  if s.head? = some '.' then (.string s, .nil)
  else
    match lastIndexOf '.' s with
    | some (i + 1) => (component (some (s.take (i + 1))), component (some (s.drop (i + 2))))
    | _ => (component (if s = [] then none else some s), .nil)

/-- The constructor behind its special cases. -/
def Pathname.ofText (s : Text) : Pathname :=
  let (d, rest) := splitDirectory s
  let (n, t) := splitName rest
  { directory := (d.map parseDirectory).getD []
    name := n
    type := t
    cached := some s }

/-- `Pathname::Pathname(AbstractString *)`. -/
def Pathname.ofNamestring (home : Option Text) (s : Text) : Pathname :=
  if s = ['.'] ∨ s = ['.', '/'] then { directory := [.relative] }
  else if s = ['.', '.'] ∨ s = ['.', '.', '/'] then { directory := [.relative, .up] }
  else .ofText (expandHome home s)

/-- `Pathname::Pathname(Value, …)`. -/
def Pathname.ofComponents (host device : Value) (directory : List Value)
    (name type version : Value) : Pathname :=
  { host, device, directory, name, type, version }

/-! ## Writing one -/

structure FileError where
  message : Text
  pathname : Pathname

section Write

-- `prin1_to_string`.
variable (prin1 : Value → Text)

namespace Pathname

def unsupported (p : Pathname) (c : Value) : FileError :=
  ⟨"Unsupported directory component ".toList ++ prin1 c, p⟩

/-- What stands for a component behind the first, without its separator. -/
def componentText (p : Pathname) : Value → Except FileError Text
  | .string s => .ok s
  | .wild => .ok ['*']
  | .wildInferiors => .ok ['*', '*']
  | .up => .ok ['.', '.']
  | c => .error (p.unsupported prin1 c)

def componentsText (p : Pathname) : List Value → Except FileError Text
  | [] => .ok []
  | c :: directory => do
    let s ← p.componentText prin1 c
    let rest ← p.componentsText directory
    return s ++ '/' :: rest

def directoryNamestring (p : Pathname) : Except FileError Text :=
  match p.directory with
  | [] => .ok []
  | .absolute :: directory => do
    let rest ← p.componentsText prin1 directory
    return '/' :: rest
  | .relative :: directory => do
    let rest ← p.componentsText prin1 directory
    return if directory = [] then '.' :: '/' :: rest else rest
  | c :: _ => .error (p.unsupported prin1 c)

/-- The host or the device. -/
def prefixText : Value → Text
  | .string s => s ++ [':']
  | _ => []

def nameText : Value → Text
  | .string s => s
  | .wild => ['*']
  | _ => []

def typeText (t : Value) : Text :=
  if t = .nil then [] else '.' :: nameText t

/-- `none` is `NULL`. -/
def namestring (p : Pathname) : Except FileError (Option Text) :=
  match p.cached with
  | some s => .ok (some s)
  | none =>
    if p.name = .nil ∧ p.type ≠ .nil then .ok none
    else do
      let d ← p.directoryNamestring prin1
      return some (prefixText p.host ++ prefixText p.device ++ d ++ nameText p.name ++
        typeText p.type)

end Pathname

/-- The pathname `q` of the components of `p` has a namestring, and this is read as `p` is. -/
def Stable (home : Option Text) (s : Text) : Prop :=
  let p := Pathname.ofNamestring home s
  let q := Pathname.ofComponents p.host p.device p.directory p.name p.type p.version
  ∃ t, q.namestring prin1 = .ok (some t) ∧
    let r := Pathname.ofNamestring home t
    r.directory = p.directory ∧ r.name = p.name ∧ r.type = p.type ∧ r.version = p.version

end Write

end Xcl.Pathnames
