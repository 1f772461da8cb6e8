import Mathlib.Tactic

/-!
# Rewrites of function calls

* `Operator`, `Symbol`, `Form`: the forms that the rewrites take apart and build;
* `sourceTransform`: the source transforms.
-/

namespace Xcl.Rewrites

/-! ## Forms -/

/-- The operators of the forms below; `named` is any other function. -/
inductive Operator
  | plus | twoArgPlus | minus | twoArgMinus
  | logand | logior | logxor | twoArgLogxor | logtest | lognot | oneMinus | ash | zerop | not | null
  | less | greater | lessEqual | greaterEqual | equal
  | twoArgLess | twoArgGreater | twoArgLessEqual | twoArgGreaterEqual
  | mapc2 | mapcar2 | funcall | car | cdr | list1 | rplacd
  | member | memql | memq | assoc | assql | assq
  | sbit | sbit1 | checkFixnumBounds | length | theSimpleBitVector | trulyTheSimpleBitVector
  | byte | ldb | dpb | internalDpb
  | throw | multipleValueList | valuesList
  | named (n : ℕ)
  deriving DecidableEq

inductive Symbol
  | nil | t | test | eq | eql
  | keyword (n : ℕ)
  | variable (n : ℕ)
  deriving DecidableEq

/-- A call has argument forms of its own (`other`), each with a number, which the rewrites look at
only for `unsafe-p`. -/
inductive Form
  | integer (n : ℤ)
  | symbol (name : Symbol)
  /-- `(FUNCTION name)` -/
  | function (name : Symbol)
  | quote (n : ℕ)
  | gensym (n : ℕ)
  | other (n : ℕ)
  | call (op : Operator) (args : List Form)
  | letForm (vars : List (ℕ × Form)) (body : List Form)
  | letStar (vars : List (ℕ × Form)) (body : List Form)
  | setq (var : ℕ) (form : Form)
  | ifForm (test consequent alternate : Form)
  | whenForm (test form : Form)
  /-- `(loop (when (endp list) (return result)) . body)` -/
  | loopUntilEndp (list : ℕ) (result : Form) (body : List Form)

/-- `*DEBUG*`, `*SPEED*` and `*SPACE*` -/
structure Policy where
  debug : ℕ
  speed : ℕ
  space : ℕ

/-- The policy does not keep `mapc2` and `mapcar2` as they are. -/
def Policy.inlines (policy : Policy) : Bool :=
  !(decide (policy.debug > policy.speed) || decide (policy.space > policy.speed))

/-! ## Source transforms -/

/-- `two-arg-op` in `transform-numeric-comparison` -/
def twoArgOp : Operator → Option Operator
  | .less => some .twoArgLess
  | .greater => some .twoArgGreater
  | .lessEqual => some .twoArgLessEqual
  | .greaterEqual => some .twoArgGreaterEqual
  | _ => none

def fixnump : Form → Bool
  | .integer n => decide (-2 ^ 61 ≤ n) && decide (n < 2 ^ 61)
  | _ => false

/-- `eq`, for fixnums. -/
def eqFixnum : Form → Form → Bool
  | .integer m, .integer n => decide (m = n)
  | _, _ => false

/-- `transform-numeric-comparison`; the gensyms are numbered from `fresh`. -/
def transformNumericComparison (fresh : ℕ) : Form → Form
  | .call op [arg1, arg2, arg3] =>
    if eqFixnum arg1 arg3 && (op = .lessEqual || op = .greaterEqual) && fixnump arg1 && fixnump arg3
    then .letStar [(fresh, arg2)] [.call .equal [.gensym fresh, arg1]]
    else
      match twoArgOp op with
      | some twoArgOp =>
        .letStar [(fresh, arg1), (fresh + 1, arg2), (fresh + 2, arg3)]
          [.whenForm (.call twoArgOp [.gensym fresh, .gensym (fresh + 1)])
            (.call twoArgOp [.gensym (fresh + 1), .gensym (fresh + 2)])]
      | none => .call op [arg1, arg2, arg3]
  | form => form

/-- `(member arg4 '(EQ #'EQ))` -/
def isTest (function : Symbol) : Form → Bool
  | .symbol name => decide (name = function)
  | .function name => decide (name = function)
  | _ => false

/-- The argument is the keyword `:TEST`. -/
def isTestKeyword : Form → Bool
  | .symbol .test => true
  | _ => false

/-- The source transforms of `member` and `assoc`, with the operators for `eql` and for `eq`. -/
def transformTest (eqlOp eqOp : Operator) (form : Form) (args : List Form) : Form :=
  match args with
  | [item, list] => .call eqlOp [item, list]
  | [item, list, arg3, arg4] =>
    if isTestKeyword arg3 && isTest .eq arg4 then .call eqOp [item, list]
    else if isTestKeyword arg3 && isTest .eql arg4 then .call eqlOp [item, list]
    else form
  | _ => form

/-- The source transform of `mapc2`. -/
def transformMapc2 (fresh : ℕ) (arg1 arg2 : Form) : Form :=
  .letStar [(fresh, arg2)]
    [.loopUntilEndp fresh arg2
      [.call .funcall [arg1, .call .car [.gensym fresh]],
        .setq fresh (.call .cdr [.gensym fresh])]]

/-- The source transform of `mapcar2`, with `list`, `result` and `temp`. -/
def transformMapcar2 (fresh : ℕ) (arg1 arg2 : Form) : Form :=
  .letStar
    [(fresh, arg2), (fresh + 1, .call .list1 [.symbol .nil]), (fresh + 2, .gensym (fresh + 1))]
    [.loopUntilEndp fresh (.call .cdr [.gensym (fresh + 1)])
      [.call .rplacd [.gensym (fresh + 2), .setq (fresh + 2)
          (.call .list1 [.call .funcall [arg1, .call .car [.gensym fresh]]])],
        .setq fresh (.call .cdr [.gensym fresh])]]

/-- The source transform of `sbit`, with `vector` and `index`. -/
def transformSbit (fresh : ℕ) (simpleBitArray subscript : Form) : Form :=
  .letForm [(fresh, simpleBitArray), (fresh + 1, subscript)]
    [.call .checkFixnumBounds [.gensym (fresh + 1), .integer 0,
        .call .oneMinus [.call .length [.call .theSimpleBitVector [.gensym fresh]]]],
      .call .sbit1 [.call .trulyTheSimpleBitVector [.gensym fresh], .gensym (fresh + 1)]]

/-- The expander of an operator; a form that it does not rewrite stays as it is. -/
def sourceTransform (policy : Policy) (fresh : ℕ) : Form → Form
  | .call .not [x] => .ifForm x (.symbol .nil) (.symbol .t)
  | .call .null [x] => .ifForm x (.symbol .nil) (.symbol .t)
  | .ifForm (.call .not [test]) consequent alternate => .ifForm test alternate consequent
  | .ifForm (.call .null [test]) consequent alternate => .ifForm test alternate consequent
  | .call .logtest [x, y] => .call .not [.call .zerop [.call .logand [x, y]]]
  | .call .plus [x, y] => .call .twoArgPlus [x, y]
  | .call .plus (x :: y :: z :: args) => .call .twoArgPlus [x, .call .plus (y :: z :: args)]
  | .call .minus [x, y] => .call .twoArgMinus [x, y]
  | .call .minus (x :: y :: z :: args) => .call .twoArgMinus [x, .call .plus (y :: z :: args)]
  | .call .logand (x :: y :: z :: args) => .call .logand [x, .call .logand (y :: z :: args)]
  | .call .logior (x :: y :: z :: args) => .call .logior [x, .call .logior (y :: z :: args)]
  | .call .logxor [x, y] => .call .twoArgLogxor [x, y]
  | .call .logxor (x :: y :: z :: args) => .call .twoArgLogxor [x, .call .logxor (y :: z :: args)]
  | .call .mapc2 [arg1, arg2] =>
    if policy.inlines then transformMapc2 fresh arg1 arg2 else .call .mapc2 [arg1, arg2]
  | .call .mapcar2 [arg1, arg2] =>
    if policy.inlines then transformMapcar2 fresh arg1 arg2 else .call .mapcar2 [arg1, arg2]
  | .call .assoc args => transformTest .assql .assq (.call .assoc args) args
  | .call .member args => transformTest .memql .memq (.call .member args) args
  | .call .sbit [simpleBitArray, subscript] => transformSbit fresh simpleBitArray subscript
  | .call .less args => transformNumericComparison fresh (.call .less args)
  | .call .greater args => transformNumericComparison fresh (.call .greater args)
  | .call .lessEqual args => transformNumericComparison fresh (.call .lessEqual args)
  | form => form

/-! ## Rewrites of the first pass -/

def p1Ldb : Form → Form
  | .call .ldb [.call .byte [size, position], integer] =>
    .call .logand [.call .ash [integer, .call .minus [.integer 0, position]],
      .call .oneMinus [.call .ash [.integer 1, size]]]
  | form => form

/-- `(1- (ash 1 size))` -/
def byteMask (size : ℤ) : ℤ := if 0 ≤ size then 2 ^ size.toNat - 1 else -1

def p1Dpb (fresh : ℕ) : Form → Form
  | .call .dpb [newbyte, .call .byte [.integer size, .integer position], integer] =>
    .letForm [(fresh, newbyte)]
      [.call .logior [
        .call .logand [integer,
          .call .lognot [.call .ash [.integer (byteMask size), .integer position]]],
        .call .ash [.call .logand [.gensym fresh, .integer (byteMask size)], .integer position]]]
  | .call .dpb [newbyte, .call .byte [size, position], integer] =>
    .call .internalDpb [newbyte, size, position, integer]
  | form => form

/-- `constantp`, for forms without side effects. -/
def constantp : Form → Bool
  | .integer _ => true
  | .quote _ => true
  | .symbol (.variable _) => false
  | .symbol .eq => false
  | .symbol .eql => false
  | .symbol _ => true
  | _ => false

mutual

/-- `unsafe-p` for one form; `exits` tells the argument forms with a `RETURN`, `GO` or `THROW`. -/
def unsafeP (exits : ℕ → Bool) : Form → Bool
  | .other n => exits n
  | .call op args => decide (op = .throw) || unsafeArgs exits args
  | .letForm vars body => unsafeVars exits vars || unsafeArgs exits body
  | .letStar vars body => unsafeVars exits vars || unsafeArgs exits body
  | .setq _ form => unsafeP exits form
  | .ifForm test consequent alternate =>
    unsafeP exits test || unsafeP exits consequent || unsafeP exits alternate
  | .whenForm test form => unsafeP exits test || unsafeP exits form
  | .loopUntilEndp _ _ _ => true
  | _ => false

/-- `unsafe-p` for the rest of a form. -/
def unsafeArgs (exits : ℕ → Bool) : List Form → Bool
  | [] => false
  | arg :: args => unsafeP exits arg || unsafeArgs exits args

/-- `unsafe-p` for bindings. -/
def unsafeVars (exits : ℕ → Bool) : List (ℕ × Form) → Bool
  | [] => false
  | (_, form) :: vars => unsafeP exits form || unsafeVars exits vars

end

/-- The gensyms from `fresh` on, bound to forms. -/
def bindings (fresh : ℕ) : List Form → List (ℕ × Form)
  | [] => []
  | arg :: args => (fresh, arg) :: bindings (fresh + 1) args

def maybeRewriteFunctionCall (exits : ℕ → Bool) (fresh : ℕ) : Form → Form
  | .call op args =>
    if unsafeArgs exits args then
      .letStar (bindings fresh args) [.call op ((bindings fresh args).map fun var => .gensym var.1)]
    else .call op args
  | form => form

def rewriteThrow (exits : ℕ → Bool) (fresh : ℕ) : Form → Form
  | .call .throw [tag, result] =>
    if unsafeArgs exits [tag, result] then
      let (tagVars, tagSym) :=
        if constantp tag then ([], tag) else ([(fresh, tag)], .gensym fresh)
      let (resultVars, resultSym) :=
        if constantp result then ([], result)
        else ([(fresh + 1, .call .multipleValueList [result])],
          .call .valuesList [.gensym (fresh + 1)])
      .letStar (tagVars ++ resultVars) [.call .throw [tagSym, resultSym]]
    else .call .throw [tag, result]
  | form => form

end Xcl.Rewrites
