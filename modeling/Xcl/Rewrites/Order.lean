import Xcl.Lib.EventOrder
import Xcl.Rewrites.Model

/-!
# The order of evaluation of argument forms

* `signals`, `runs`: the argument forms that a form evaluates, one after the other, up to its end.
-/

namespace Xcl.Rewrites

open EventOrder Runs

-- The equations of these functions are made once, before the lemmas that use them.
section
attribute [local simp] bindings p1Ldb twoArgOp unsafeArgs unsafeP
end

/-! ## Evaluation -/

/-- The value of a form that is an integer without any evaluation of argument forms. -/
def integerValue : Form → Option ℤ
  | .integer n => some n
  | .call .minus [arg1, arg2] => do return (← integerValue arg1) - (← integerValue arg2)
  | .call .twoArgMinus [arg1, arg2] => do return (← integerValue arg1) - (← integerValue arg2)
  | _ => none

section
attribute [local simp] integerValue
end

/-- A call of the function may signal an error. `ash` cannot represent left shifts by bignums. -/
def signals : Operator → List Form → Bool
  | .byte, _ => false
  | .not, _ => false
  | .null, _ => false
  | .multipleValueList, _ => false
  | .valuesList, _ => false
  | .minus, [arg1, arg2] => (integerValue arg1).isNone || (integerValue arg2).isNone
  | .twoArgMinus, [arg1, arg2] => (integerValue arg1).isNone || (integerValue arg2).isNone
  | .ash, [arg1, arg2] =>
    match integerValue arg1, integerValue arg2 with
    | some n, some shift => decide (n ≠ 0) && decide (2 ^ 61 ≤ shift)
    | _, _ => true
  | _, _ => true

section
attribute [local simp] signals
end

mutual

/-- The argument forms that are evaluated. -/
noncomputable def runs : Form → Runs ℕ
  | .other n => event n
  | .call op args => runsArgs args * if signals op args then mayEnd else 1
  | .letForm vars body => runsVars vars * runsArgs body
  | .letStar vars body => runsVars vars * runsArgs body
  | .setq _ form => runs form
  | .ifForm test consequent alternate => runs test * choice (runs consequent) (runs alternate)
  | .whenForm test form => runs test * choice (runs form) 1
  | .loopUntilEndp _ result body => iterate (mayEnd * runsArgs body) * (mayEnd * runs result)
  | .integer _ => 1
  | .symbol _ => 1
  | .function _ => 1
  | .quote _ => 1
  | .gensym _ => 1

/-- Forms one after the other. -/
noncomputable def runsArgs : List Form → Runs ℕ
  | [] => 1
  | arg :: args => runs arg * runsArgs args

/-- Initforms one after the other. -/
noncomputable def runsVars : List (ℕ × Form) → Runs ℕ
  | [] => 1
  | (_, form) :: vars => runs form * runsVars vars

end

section
attribute [local simp] runs runsArgs runsVars
end

theorem runsArgs_append (args args' : List Form) :
    runsArgs (args ++ args') = runsArgs args * runsArgs args' := by
  induction args with
  | nil => simp [runsArgs]
  | cons arg args ih => simp [runsArgs, ih, mul_assoc]

theorem runsVars_append (vars vars' : List (ℕ × Form)) :
    runsVars (vars ++ vars') = runsVars vars * runsVars vars' := by
  induction vars with
  | nil => simp [runsVars]
  | cons var vars ih => simp [runsVars, ih, mul_assoc]

/-! ## One rewrite -/

/-- Constants, variables and names of functions. -/
def Form.isAtom : Form → Bool
  | .integer _ => true
  | .symbol _ => true
  | .function _ => true
  | .quote _ => true
  | .gensym _ => true
  | _ => false

theorem runs_of_isAtom {form : Form} (h : form.isAtom = true) : runs form = 1 := by
  cases form <;> first | rfl | cases h

inductive Rewrite
  | sourceTransform
  | p1Ldb
  | p1Dpb
  | rewriteThrow
  | maybeRewriteFunctionCall

def Rewrite.apply (policy : Policy) (exits : ℕ → Bool) (fresh : ℕ) : Rewrite → Form → Form
  | .sourceTransform => Rewrites.sourceTransform policy fresh
  | .p1Ldb => Rewrites.p1Ldb
  | .p1Dpb => Rewrites.p1Dpb fresh
  | .rewriteThrow => Rewrites.rewriteThrow exits fresh
  | .maybeRewriteFunctionCall => Rewrites.maybeRewriteFunctionCall exits fresh

/-- The shift of `ldb` returns an integer without any evaluation of argument forms. -/
def shiftReturns (integer position : Form) : Bool :=
  integer.isAtom && position.isAtom && !signals .minus [.integer 0, position] &&
    !signals .ash [integer, .call .minus [.integer 0, position]]

/-- The rewrite of the form keeps the order of evaluation. `mapc2` evaluates the list form twice and
the function form for each element, `mapcar2` the function form for each element, and `ldb` its
arguments from the last to the first. -/
def KeepsOrder (policy : Policy) : Rewrite → Form → Prop
  | .sourceTransform, .call .mapc2 [arg1, arg2] =>
    policy.inlines = true → arg1.isAtom = true ∧ arg2.isAtom = true
  | .sourceTransform, .call .mapcar2 [arg1, _] => policy.inlines = true → arg1.isAtom = true
  | .p1Ldb, .call .ldb [.call .byte [size, position], integer] =>
    size.isAtom = true ∧ (position.isAtom = true ∨ integer.isAtom = true) ∨
      shiftReturns integer position = true
  | _, _ => True

theorem runs_transformMapc2 (fresh : ℕ) (arg1 arg2 : Form) :
    runs (transformMapc2 fresh arg1 arg2) =
      runs arg2 * (iterate (mayEnd * (runs arg1 * mayEnd)) * (mayEnd * runs arg2)) := by
  simp [transformMapc2, runs, runsArgs, runsVars, signals, mul_assoc]

theorem runs_transformMapcar2 (fresh : ℕ) (arg1 arg2 : Form) :
    runs (transformMapcar2 fresh arg1 arg2) =
      runs arg2 * (mayEnd * (iterate (mayEnd * (runs arg1 * mayEnd)) * mayEnd)) := by
  simp [transformMapcar2, runs, runsArgs, runsVars, signals, mul_assoc]

theorem runs_transformSbit (fresh : ℕ) (simpleBitArray subscript : Form) :
    runs (transformSbit fresh simpleBitArray subscript) =
      runs (.call .sbit [simpleBitArray, subscript]) := by
  simp [transformSbit, runs, runsArgs, runsVars, signals, mul_assoc]

theorem runs_of_isTest {function : Symbol} {form : Form} (h : isTest function form = true) :
    runs form = 1 := by
  cases form <;> first | rfl | cases h

theorem runs_of_isTestKeyword {form : Form} (h : isTestKeyword form = true) : runs form = 1 := by
  cases form <;> first | rfl | cases h

theorem runs_transformTest {op eqlOp eqOp : Operator} (hop : ∀ args, signals op args = true)
    (heql : ∀ args, signals eqlOp args = true) (heq : ∀ args, signals eqOp args = true)
    (args : List Form) :
    runs (transformTest eqlOp eqOp (.call op args) args) = runs (.call op args) := by
  unfold transformTest
  split
  · simp [runs, runsArgs, hop, heql]
  · split_ifs with h h'
    · rw [Bool.and_eq_true] at h
      simp [runs, runsArgs, hop, heq, runs_of_isTestKeyword h.1, runs_of_isTest h.2]
    · rw [Bool.and_eq_true] at h'
      simp [runs, runsArgs, hop, heql, runs_of_isTestKeyword h'.1, runs_of_isTest h'.2]
    · rfl
  · rfl

/-- The three arguments are bound to variables in their order. -/
theorem runs_transformNumericComparison {op : Operator} (hop : ∀ args, signals op args = true)
    (fresh : ℕ) (args : List Form) :
    runs (transformNumericComparison fresh (.call op args)) = runs (.call op args) := by
  unfold transformNumericComparison
  split
  next op' arg1 arg2 arg3 heq =>
    obtain ⟨rfl, rfl⟩ := Form.call.inj heq
    split_ifs with h
    · have harg1 : runs arg1 = 1 := by cases arg1 <;> first | rfl | simp [fixnump] at h
      have harg3 : runs arg3 = 1 := by cases arg3 <;> first | rfl | simp [fixnump] at h
      have hequal : ∀ args, signals .equal args = true := fun _ => rfl
      simp [runs, runsArgs, runsVars, hop, hequal, harg1, harg3]
    · cases htwo : twoArgOp op with
      | none => rfl
      | some twoArg =>
        have hsignals : ∀ args, signals twoArg args = true := fun args => by
          cases op <;> simp only [twoArgOp, reduceCtorEq, Option.some.injEq] at htwo <;>
            subst htwo <;> rfl
        simp [runs, runsArgs, runsVars, hsignals, hop, mul_assoc]
  next => rfl

theorem runs_sourceTransform {policy : Policy} {form : Form}
    (h : KeepsOrder policy .sourceTransform form) (fresh : ℕ) :
    runs (sourceTransform policy fresh form) = runs form := by
  fun_cases sourceTransform policy fresh form
  case case3 | case4 =>
    simp [runs, runsArgs, signals, choice_comm]
  case case14 arg1 arg2 hinlines =>
    obtain ⟨harg1, harg2⟩ := h hinlines
    simp [runs_transformMapc2, runs, runsArgs, signals, runs_of_isAtom harg1, runs_of_isAtom harg2]
  case case16 arg1 arg2 hinlines =>
    simp [runs_transformMapcar2, runs, runsArgs, signals, runs_of_isAtom (h hinlines)]
  case case18 args => exact runs_transformTest (fun _ => rfl) (fun _ => rfl) (fun _ => rfl) args
  case case19 args => exact runs_transformTest (fun _ => rfl) (fun _ => rfl) (fun _ => rfl) args
  case case20 simpleBitArray subscript => exact runs_transformSbit fresh simpleBitArray subscript
  case case21 args => exact runs_transformNumericComparison (fun _ => rfl) fresh args
  case case22 args => exact runs_transformNumericComparison (fun _ => rfl) fresh args
  case case23 args => exact runs_transformNumericComparison (fun _ => rfl) fresh args
  all_goals simp [runs, runsArgs, signals, mul_assoc]

theorem runs_ldb (size position integer : Form) :
    runs (p1Ldb (.call .ldb [.call .byte [size, position], integer])) =
      runs integer * (runs position *
        ((if signals .minus [.integer 0, position] then mayEnd else 1) *
        ((if signals .ash [integer, .call .minus [.integer 0, position]] then mayEnd else 1) *
          (runs size * mayEnd)))) := by
  have hlogand : ∀ args, signals .logand args = true := fun _ => rfl
  have honeMinus : ∀ args, signals .oneMinus args = true := fun _ => rfl
  cases hash : signals .ash [.integer 1, size] <;>
    simp [p1Ldb, runs, runsArgs, hlogand, honeMinus, hash, mul_assoc]

theorem runs_byte (size position integer : Form) :
    runs (.call .ldb [.call .byte [size, position], integer]) =
      runs size * (runs position * (runs integer * mayEnd)) := by
  simp [runs, runsArgs, signals, mul_assoc]

theorem runs_p1Ldb {policy : Policy} {form : Form} (h : KeepsOrder policy .p1Ldb form) :
    runs (p1Ldb form) = runs form := by
  by_cases hform :
      ∃ size position integer, form = .call .ldb [.call .byte [size, position], integer]
  · obtain ⟨size, position, integer, rfl⟩ := hform
    rw [runs_ldb, runs_byte]
    rcases h with ⟨hsize, hatom⟩ | hshift
    · rw [runs_of_isAtom hsize]
      rcases hatom with hposition | hinteger
      · rw [runs_of_isAtom hposition]
        simp only [one_mul, ite_mul_mayEnd]
      · rw [runs_of_isAtom hinteger]
        simp only [one_mul, ite_mul_mayEnd]
    · simp only [shiftReturns, Bool.and_eq_true, Bool.not_eq_true'] at hshift
      obtain ⟨⟨⟨hinteger, hposition⟩, hminus⟩, hash⟩ := hshift
      simp [runs_of_isAtom hinteger, runs_of_isAtom hposition, hminus, hash]
  · fun_cases p1Ldb form
    case case1 size position integer => exact absurd ⟨size, position, integer, rfl⟩ hform
    case case2 => rfl

theorem runs_p1Dpb (fresh : ℕ) (form : Form) : runs (p1Dpb fresh form) = runs form := by
  fun_cases p1Dpb fresh form
  all_goals simp [runs, runsArgs, runsVars, signals, mul_assoc]

theorem runs_of_constantp {form : Form} (h : constantp form = true) : runs form = 1 := by
  cases form <;> first | rfl | cases h

theorem runs_rewriteThrow (exits : ℕ → Bool) (fresh : ℕ) (form : Form) :
    runs (rewriteThrow exits fresh form) = runs form := by
  unfold rewriteThrow
  split
  next tag result =>
    split_ifs with _ htag hresult hresult
    · simp [runs, runsArgs, runsVars, runs_of_constantp htag, runs_of_constantp hresult]
    · simp [runs, runsArgs, runsVars, signals, runs_of_constantp htag]
    · simp [runs, runsArgs, runsVars, signals, runs_of_constantp hresult]
    · simp [runs, runsArgs, runsVars, signals, mul_assoc]
    · rfl
  next => rfl

theorem runsVars_bindings (fresh : ℕ) (args : List Form) :
    runsVars (bindings fresh args) = runsArgs args := by
  induction args generalizing fresh with
  | nil => rfl
  | cons arg args ih => simp [bindings, runsVars, runsArgs, ih]

theorem runsArgs_gensyms (vars : List (ℕ × Form)) :
    runsArgs (vars.map fun var => .gensym var.1) = 1 := by
  induction vars with
  | nil => rfl
  | cons var vars ih => simp [runsArgs, runs, ih]

theorem integerValue_of_unsafeP {exits : ℕ → Bool} {form : Form} (h : unsafeP exits form = true) :
    integerValue form = none := by
  fun_induction integerValue form with
  | case1 n => simp [unsafeP] at h
  | case2 arg1 arg2 ih1 ih2 | case3 arg1 arg2 ih1 ih2 =>
    rcases (show unsafeP exits arg1 = true ∨ unsafeP exits arg2 = true by
      simpa [unsafeP, unsafeArgs] using h) with harg1 | harg2
    · simp [ih1 harg1]
    · cases harg1 : integerValue arg1 <;> simp [ih2 harg2]
  | case4 => rfl

theorem signals_of_none {op : Operator} {args : List Form}
    (h : ∃ arg ∈ args, integerValue arg = none) : signals op args = signals op [] := by
  match args, h with
  | [], _ => rfl
  | [_], _ => cases op <;> rfl
  | [arg1, arg2], h =>
    have hnone : integerValue arg1 = none ∨ integerValue arg2 = none := by simpa using h
    cases op with
    | minus | twoArgMinus => rcases hnone with hnone | hnone <;> simp [signals, hnone]
    | ash =>
      rcases hnone with hnone | hnone
      · simp [signals, hnone]
      · cases harg1 : integerValue arg1 <;> simp [signals, hnone]
    | _ => rfl
  | _ :: _ :: _ :: _, _ => cases op <;> rfl

theorem exists_integerValue_none {exits : ℕ → Bool} {args : List Form}
    (h : unsafeArgs exits args = true) : ∃ arg ∈ args, integerValue arg = none := by
  induction args with
  | nil => simp [unsafeArgs] at h
  | cons arg args ih =>
    rw [unsafeArgs, Bool.or_eq_true] at h
    rcases h with harg | hargs
    · exact ⟨arg, List.mem_cons_self, integerValue_of_unsafeP harg⟩
    · obtain ⟨arg', hmem, hnone⟩ := ih hargs
      exact ⟨arg', List.mem_cons_of_mem _ hmem, hnone⟩

theorem signals_gensyms {exits : ℕ → Bool} {op : Operator} {args : List Form}
    (h : unsafeArgs exits args = true) (fresh : ℕ) :
    signals op ((bindings fresh args).map fun var => .gensym var.1) = signals op args := by
  rw [signals_of_none (exists_integerValue_none h)]
  cases args with
  | nil => rfl
  | cons arg args => exact signals_of_none ⟨.gensym fresh, List.mem_cons_self, rfl⟩

theorem runs_maybeRewriteFunctionCall (exits : ℕ → Bool) (fresh : ℕ) (form : Form) :
    runs (maybeRewriteFunctionCall exits fresh form) = runs form := by
  fun_cases maybeRewriteFunctionCall exits fresh form
  case case1 op args hunsafe =>
    simp [runs, runsArgs, runsVars_bindings, runsArgs_gensyms, signals_gensyms hunsafe]
  all_goals rfl

theorem runs_apply {policy : Policy} {rewrite : Rewrite} {form : Form}
    (h : KeepsOrder policy rewrite form) (exits : ℕ → Bool) (fresh : ℕ) :
    runs (rewrite.apply policy exits fresh form) = runs form := by
  cases rewrite with
  | sourceTransform => exact runs_sourceTransform h fresh
  | p1Ldb => exact runs_p1Ldb h
  | p1Dpb => exact runs_p1Dpb fresh form
  | rewriteThrow => exact runs_rewriteThrow exits fresh form
  | maybeRewriteFunctionCall => exact runs_maybeRewriteFunctionCall exits fresh form

/-! ## Rewrites of rewrites -/

theorem integerValue_transformTest {op eqlOp eqOp : Operator}
    (hop : ∀ args, integerValue (.call op args) = none)
    (heql : ∀ args, integerValue (.call eqlOp args) = none)
    (heq : ∀ args, integerValue (.call eqOp args) = none) (args : List Form) :
    integerValue (transformTest eqlOp eqOp (.call op args) args) = none := by
  unfold transformTest
  split
  · exact heql _
  · split_ifs
    · exact heq _
    · exact heql _
    · exact hop _
  · exact hop _

theorem integerValue_transformNumericComparison {op : Operator}
    (hop : ∀ args, integerValue (.call op args) = none) (fresh : ℕ) (args : List Form) :
    integerValue (transformNumericComparison fresh (.call op args)) = none := by
  unfold transformNumericComparison
  split
  next op' arg1 arg2 arg3 heq =>
    obtain ⟨rfl, rfl⟩ := Form.call.inj heq
    split_ifs
    · rfl
    · split
      · rfl
      · exact hop _
  next => exact hop _

theorem integerValue_sourceTransform (policy : Policy) (fresh : ℕ) (form : Form) :
    integerValue (sourceTransform policy fresh form) = integerValue form := by
  fun_cases sourceTransform policy fresh form
  case case18 args | case19 args =>
    exact integerValue_transformTest (fun _ => rfl) (fun _ => rfl) (fun _ => rfl) args
  case case21 args | case22 args | case23 args =>
    exact integerValue_transformNumericComparison (fun _ => rfl) fresh args
  all_goals first | rfl | simp [integerValue]

theorem integerValue_apply (policy : Policy) (exits : ℕ → Bool) (fresh : ℕ) (rewrite : Rewrite)
    (form : Form) : integerValue (rewrite.apply policy exits fresh form) = integerValue form := by
  cases rewrite with
  | sourceTransform => exact integerValue_sourceTransform policy fresh form
  | p1Ldb =>
    show integerValue (p1Ldb form) = _
    fun_cases p1Ldb form <;> rfl
  | p1Dpb =>
    show integerValue (p1Dpb fresh form) = _
    fun_cases p1Dpb fresh form <;> rfl
  | rewriteThrow =>
    show integerValue (rewriteThrow exits fresh form) = _
    fun_cases rewriteThrow exits fresh form <;> rfl
  | maybeRewriteFunctionCall =>
    show integerValue (maybeRewriteFunctionCall exits fresh form) = _
    fun_cases maybeRewriteFunctionCall exits fresh form
    case case1 op args hunsafe =>
      exact (@integerValue_of_unsafeP exits _ (by simp [unsafeP, hunsafe])).symm
    all_goals rfl

theorem signals_congr {op : Operator} {args args' : List Form}
    (h : args'.map integerValue = args.map integerValue) : signals op args' = signals op args := by
  have hlength : args'.length = args.length := by simpa using congrArg List.length h
  match args, args', h with
  | [], [], _ => rfl
  | [_], [_], _ => cases op <;> rfl
  | [arg1, arg2], [arg1', arg2'], h =>
    obtain ⟨h1, h2⟩ : integerValue arg1' = integerValue arg1 ∧
        integerValue arg2' = integerValue arg2 := by simpa using h
    cases op <;> simp [signals, h1, h2]
  | _ :: _ :: _ :: _, _ :: _ :: _ :: _, _ => cases op <;> rfl

theorem integerValue_call_congr {op : Operator} {args args' : List Form}
    (h : args'.map integerValue = args.map integerValue) :
    integerValue (.call op args') = integerValue (.call op args) := by
  have hlength : args'.length = args.length := by simpa using congrArg List.length h
  match args, args', h with
  | [], [], _ => rfl
  | [_], [_], _ => cases op <;> rfl
  | [arg1, arg2], [arg1', arg2'], h =>
    obtain ⟨h1, h2⟩ : integerValue arg1' = integerValue arg1 ∧
        integerValue arg2' = integerValue arg2 := by simpa using h
    cases op <;> simp [integerValue, h1, h2]
  | _ :: _ :: _ :: _, _ :: _ :: _ :: _, _ => cases op <;> rfl

inductive Rewritten (policy : Policy) (exits : ℕ → Bool) : Form → Form → Prop
  | here {form : Form} (rewrite : Rewrite) (fresh : ℕ) (h : KeepsOrder policy rewrite form) :
    Rewritten policy exits form (rewrite.apply policy exits fresh form)
  | call {form form' : Form} (op : Operator) (before behind : List Form)
    (h : Rewritten policy exits form form') :
    Rewritten policy exits (.call op (before ++ form :: behind))
      (.call op (before ++ form' :: behind))
  | letFormVar {form form' : Form} (n : ℕ) (before behind : List (ℕ × Form)) (body : List Form)
    (h : Rewritten policy exits form form') :
    Rewritten policy exits (.letForm (before ++ (n, form) :: behind) body)
      (.letForm (before ++ (n, form') :: behind) body)
  | letFormBody {form form' : Form} (vars : List (ℕ × Form)) (before behind : List Form)
    (h : Rewritten policy exits form form') :
    Rewritten policy exits (.letForm vars (before ++ form :: behind))
      (.letForm vars (before ++ form' :: behind))
  | letStarVar {form form' : Form} (n : ℕ) (before behind : List (ℕ × Form)) (body : List Form)
    (h : Rewritten policy exits form form') :
    Rewritten policy exits (.letStar (before ++ (n, form) :: behind) body)
      (.letStar (before ++ (n, form') :: behind) body)
  | letStarBody {form form' : Form} (vars : List (ℕ × Form)) (before behind : List Form)
    (h : Rewritten policy exits form form') :
    Rewritten policy exits (.letStar vars (before ++ form :: behind))
      (.letStar vars (before ++ form' :: behind))
  | setq {form form' : Form} (n : ℕ) (h : Rewritten policy exits form form') :
    Rewritten policy exits (.setq n form) (.setq n form')
  | ifTest {form form' : Form} (consequent alternate : Form)
    (h : Rewritten policy exits form form') :
    Rewritten policy exits (.ifForm form consequent alternate) (.ifForm form' consequent alternate)
  | ifConsequent {form form' : Form} (test alternate : Form)
    (h : Rewritten policy exits form form') :
    Rewritten policy exits (.ifForm test form alternate) (.ifForm test form' alternate)
  | ifAlternate {form form' : Form} (test consequent : Form)
    (h : Rewritten policy exits form form') :
    Rewritten policy exits (.ifForm test consequent form) (.ifForm test consequent form')
  | whenTest {form form' : Form} (body : Form) (h : Rewritten policy exits form form') :
    Rewritten policy exits (.whenForm form body) (.whenForm form' body)
  | whenBody {form form' : Form} (test : Form) (h : Rewritten policy exits form form') :
    Rewritten policy exits (.whenForm test form) (.whenForm test form')
  | loopResult {form form' : Form} (list : ℕ) (body : List Form)
    (h : Rewritten policy exits form form') :
    Rewritten policy exits (.loopUntilEndp list form body) (.loopUntilEndp list form' body)
  | loopBody {form form' : Form} (list : ℕ) (result : Form) (before behind : List Form)
    (h : Rewritten policy exits form form') :
    Rewritten policy exits (.loopUntilEndp list result (before ++ form :: behind))
      (.loopUntilEndp list result (before ++ form' :: behind))

theorem Rewritten.keeps {policy : Policy} {exits : ℕ → Bool} {form form' : Form}
    (h : Rewritten policy exits form form') :
    runs form' = runs form ∧ integerValue form' = integerValue form := by
  induction h with
  | here rewrite fresh h =>
    exact ⟨runs_apply h exits fresh, integerValue_apply policy exits fresh rewrite _⟩
  | call op before behind h ih =>
    have hvalues : ∀ {form form' : Form}, integerValue form' = integerValue form →
        (before ++ form' :: behind).map integerValue =
          (before ++ form :: behind).map integerValue := by
      intro form form' hvalue
      simp [hvalue]
    refine ⟨?_, integerValue_call_congr (hvalues ih.2)⟩
    simp only [runs, runsArgs_append, runsArgs, ih.1, signals_congr (hvalues ih.2)]
  | letFormVar n before behind body h ih | letStarVar n before behind body h ih =>
    exact ⟨by simp only [runs, runsVars_append, runsVars, ih.1], rfl⟩
  | letFormBody vars before behind h ih | letStarBody vars before behind h ih =>
    exact ⟨by simp only [runs, runsArgs_append, runsArgs, ih.1], rfl⟩
  | setq n h ih | ifTest _ _ h ih | ifConsequent _ _ h ih | ifAlternate _ _ h ih
  | whenTest _ h ih | whenBody _ h ih | loopResult _ _ h ih =>
    exact ⟨by simp only [runs, ih.1], rfl⟩
  | loopBody list result before behind h ih =>
    exact ⟨by simp only [runs, runsArgs_append, runsArgs, ih.1], rfl⟩

theorem runs_of_rewritten {policy : Policy} {exits : ℕ → Bool} {form form' : Form}
    (h : Relation.ReflTransGen (Rewritten policy exits) form form') : runs form' = runs form := by
  induction h with
  | refl => rfl
  | tail _ hstep ih => rw [hstep.keeps.1, ih]

end Xcl.Rewrites
