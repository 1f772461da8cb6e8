import Mathlib.Tactic

/-!
# Backquote

* `Object`: values of forms;
* `Form`, `Form.eval`: the forms in a template and those of an expansion, and their evaluation.

A template has no backquotes inside, so no form in it is an expandable backquote expression.
-/

namespace Xcl.Backquote

/-- The values. The numbers, strings and other atoms that evaluate to themselves are numbered. -/
inductive Object
  | nil
  | symbol (name : ℕ)
  | self (n : ℕ)
  | cons (car cdr : Object)
  | vector (contents : List Object)

/-- The functions that an expansion calls. -/
inductive Backq
  | list | listStar | append | nconc | cons | vector
  deriving DecidableEq

/-- The forms. A call of `list*` has a first argument and a call of `cons` two. The other forms are
given by `ι`. -/
inductive Form (ι : Type)
  | nil
  /-- A number, or `T`. -/
  | self (object : Object)
  | quote (object : Object)
  | list (args : List (Form ι))
  | listStar (first : Form ι) (rest : List (Form ι))
  | cons (x y : Form ι)
  | append (args : List (Form ι))
  | nconc (args : List (Form ι))
  /-- A call of `backq-list`, and so on. -/
  | backq (function : Backq) (args : List (Form ι))
  | other (form : ι)

inductive Atom
  | nil
  | symbol (name : ℕ)
  | self (n : ℕ)

def Atom.object : Atom → Object
  | nil => .nil
  | symbol name => .symbol name
  | self n => .self n

/-- The templates. `,@form` and `,.form` are elements of lists and vectors. -/
inductive Template (ι : Type)
  | atom (leaf : Atom)
  | comma (form : Form ι)
  | cons (car cdr : Template ι)
  | at (form : Form ι) (cdr : Template ι)
  | dot (form : Form ι) (cdr : Template ι)
  | vector (contents : Template ι)

variable {ι : Type}

/-! ## Lists -/

def listOf : List Object → Object
  | [] => .nil
  | x :: xs => .cons x (listOf xs)

def listStarOf : Object → List Object → Object
  | x, [] => x
  | x, y :: ys => .cons x (listStarOf y ys)

def elements : Object → Option (List Object)
  | .nil => some []
  | .cons x y => (elements y).map (x :: ·)
  | _ => none

/-- The elements of a proper list before another object. -/
def splice (x y : Object) : Option Object :=
  (elements x).map fun xs => xs.foldr .cons y

/-- `append` -/
def appendOf : List Object → Option Object
  | [] => some .nil
  | [x] => some x
  | x :: xs => appendOf xs >>= splice x

/-- The end of a list, proper or not, is replaced. -/
def replaceEnd (y : Object) : Object → Object
  | .cons a x => .cons a (replaceEnd y x)
  | _ => y

/-- `nconc` of two lists that are not used otherwise. -/
def nconcTwo (x y : Object) : Option Object :=
  match x with
  | .nil => some y
  | .cons _ _ => some (replaceEnd y x)
  | _ => none

/-- `nconc` -/
def nconcOf : List Object → Option Object
  | [] => some .nil
  | [x] => some x
  | x :: xs => nconcOf xs >>= nconcTwo x

/-- The functions `backq-list` and so on. A wrong number of arguments is an error. -/
def Backq.apply : Backq → List Object → Option Object
  | list, args => some (listOf args)
  | listStar, x :: xs => some (listStarOf x xs)
  | append, args => appendOf args
  | nconc, args => nconcOf args
  | cons, [x, y] => some (.cons x y)
  | vector, [x] => (elements x).map .vector
  | _, _ => none

/-! ## Evaluation -/

section

variable {σ : Type} (run : ι → σ → Option (Object × σ))

mutual

/-- The value of a form and the state afterwards, or `none` for an error. `run` gives the
evaluation of the other forms. -/
def Form.eval : Form ι → σ → Option (Object × σ)
  | .nil, s => some (.nil, s)
  | .self object, s => some (object, s)
  | .quote object, s => some (object, s)
  | .list args, s => do
    let (values, s) ← evals args s
    some (listOf values, s)
  | .listStar first rest, s => do
    let (value, s) ← first.eval s
    let (values, s) ← evals rest s
    some (listStarOf value values, s)
  | .cons x y, s => do
    let (a, s) ← x.eval s
    let (b, s) ← y.eval s
    some (.cons a b, s)
  | .append args, s => do
    let (values, s) ← evals args s
    let value ← appendOf values
    some (value, s)
  | .nconc args, s => do
    let (values, s) ← evals args s
    let value ← nconcOf values
    some (value, s)
  | .backq function args, s => do
    let (values, s) ← evals args s
    let value ← function.apply values
    some (value, s)
  | .other form, s => run form s

/-- The values of the arguments of a call, from left to right. -/
def evals : List (Form ι) → σ → Option (List Object × σ)
  | [], s => some ([], s)
  | form :: forms, s => do
    let (value, s) ← form.eval s
    let (values, s) ← evals forms s
    some (value :: values, s)

end

/-- The structure that a template stands for: each form is replaced by its value, the forms are
evaluated from left to right, and the values of the spliced ones are proper lists. -/
def Template.meaning : Template ι → σ → Option (Object × σ)
  | .atom leaf, s => some (leaf.object, s)
  | comma form, s => form.eval run s
  | cons car cdr, s => do
    let (x, s) ← car.meaning s
    let (y, s) ← cdr.meaning s
    some (.cons x y, s)
  | .at form cdr, s | dot form cdr, s => do
    let (x, s) ← form.eval run s
    let (y, s) ← cdr.meaning s
    let value ← splice x y
    some (value, s)
  | vector contents, s => do
    let (x, s) ← contents.meaning s
    let xs ← elements x
    some (.vector xs, s)

end

/-! ## Expansion -/

inductive Flagged (ι : Type)
  | nil
  | t (object : Object)
  | quote (object : Object)
  | comma (form : Form ι)
  | list (args : List (Form ι))
  | listStar (first : Form ι) (rest : List (Form ι))
  | append (args : List (Form ι))
  | nconc (args : List (Form ι))
  | vector (form : Form ι)

def comma : Form ι → Flagged ι
  | .nil => .nil
  | .self object => .t object
  | .quote object => .quote object
  | .append args => .append args
  | .list args => .list args
  | .listStar first rest => .listStar first rest
  | .nconc args => .nconc args
  | .cons x y => .listStar x [y]
  | form => .comma form

def backquotify1 : Flagged ι → Form ι
  | .comma form => form
  | .t object => .self object
  | .nil => .nil
  | .quote object => .quote object
  | .listStar first [] => .backq .cons [first]
  | .listStar first [y] => .backq .cons [first, y]
  | .listStar first rest => .backq .listStar (first :: rest)
  | .vector form => .backq .vector [form]
  | .list args => .backq .list args
  | .append args => .backq .append args
  | .nconc args => .backq .nconc args

/-- The object of a flag `QUOTE`, `T` or `NIL`. -/
def Flagged.constant : Flagged ι → Option Object
  | nil => some .nil
  | t object | quote object => some object
  | _ => none

/-- The clauses of `backquotify` for a list whose first element is not spliced. -/
def combine (a d : Flagged ι) : Flagged ι :=
  match d with
  | .nil =>
    match a.constant with
    | some object => .quote (.cons object .nil)
    | none => .list [backquotify1 a]
  | .quote object' | .t object' =>
    match a.constant with
    | some object => .quote (.cons object object')
    | none => .listStar (backquotify1 a) [backquotify1 d]
  | .list args => .list (backquotify1 a :: args)
  | .listStar first rest => .listStar (backquotify1 a) (first :: rest)
  | d => .listStar (backquotify1 a) [backquotify1 d]

def backquotify : Template ι → Flagged ι
  | .atom .nil => .nil
  | .atom (.symbol name) => .quote (.symbol name)
  | .atom (.self n) => .t (.self n)
  | .comma form => comma form
  | .vector contents => .vector (backquotify1 (backquotify contents))
  | .at form cdr =>
    match backquotify cdr with
    | .nil => comma form
    | .append args => .append (form :: args)
    | d => .append [form, backquotify1 d]
  | .dot form cdr =>
    match backquotify cdr with
    | .nil => comma form
    | .nconc args => .nconc (form :: args)
    | d => .nconc [form, backquotify1 d]
  | .cons car cdr => combine (backquotify car) (backquotify cdr)

/-- The form that `backquote-macro` returns. -/
def expand (template : Template ι) : Form ι := backquotify1 (backquotify template)

end Xcl.Backquote
