import Xcl.Interpreter.Unwind

/-!
# Variables and calls

* `Compositional`: a property of computations that passes to what is made of them.
-/

namespace Xcl.Interpreter

open Xcl.Exits Comp

variable {p : Policy} {k : Context} {ev : Form → ℕ → Interp Value} {α β : Type}

/-! ## Rules -/

/-- The errors are none of exits. -/
def Ordinary (x : Except LispError α) : Prop := ∀ e, x = .error e → ¬ e.Lost

theorem ordinary_pure (a : α) : Ordinary (pure a : Except LispError α) := nofun

theorem ordinary_throw {e : LispError} (h : ¬ e.Lost) :
    Ordinary (throw e : Except LispError α) := by
  rintro e' ⟨⟩
  exact h

theorem Ordinary.bind {x : Except LispError α} {g : α → Except LispError β} (hx : Ordinary x)
    (hg : ∀ a, Ordinary (g a)) : Ordinary (x >>= g) := by
  intro e h
  cases x with
  | error e' =>
    obtain rfl : e' = e := Except.error.inj h
    exact hx e' rfl
  | ok a => exact hg a e h

theorem ordinary_ite {c : Prop} [Decidable c] {x y : Except LispError α} (hx : Ordinary x)
    (hy : Ordinary y) : Ordinary (if c then x else y) := by
  split
  · exact hx
  · exact hy

theorem ordinary_section {c : Prop} [Decidable c] {x y : Except LispError α}
    {g : α → Except LispError β} (hx : Ordinary x) (hy : Ordinary y) (hg : ∀ a, Ordinary (g a)) :
    Ordinary (if c then x >>= g else y >>= g) := ordinary_ite (hx.bind hg) (hy.bind hg)

theorem ordinary_parseRequired (l : List Parameter) : Ordinary (parseRequired l) := by
  induction l with
  | nil => exact ordinary_pure _
  | cons x tail ih =>
    cases x with
    | list keyword var initform suppliedP => exact ordinary_throw id
    | symbol s =>
      refine ordinary_ite (ordinary_pure _) (ordinary_ite (ordinary_pure _) ?_)
      refine ordinary_ite (ordinary_pure _) (ordinary_ite (ordinary_pure _) ?_)
      exact ih.bind fun _ => ordinary_pure _

theorem ordinary_parseOptionals (l : List Parameter) : Ordinary (parseOptionals l) := by
  induction l with
  | nil => exact ordinary_pure _
  | cons x tail ih =>
    cases x with
    | list keyword var initform suppliedP =>
      exact ordinary_ite (ordinary_throw id) (ih.bind fun _ => ordinary_pure _)
    | symbol s =>
      refine ordinary_ite (ordinary_pure _) (ordinary_ite (ordinary_pure _) ?_)
      exact ordinary_ite (ordinary_pure _) (ih.bind fun _ => ordinary_pure _)

theorem ordinary_parseRest (l : List Parameter) : Ordinary (parseRest l) := by
  unfold parseRest
  split
  · exact ordinary_throw id
  · exact ordinary_throw id
  · exact ordinary_ite (ordinary_pure _) (ordinary_pure _)
  · exact ordinary_pure _

theorem ordinary_parseKeywords (l : List Parameter) : Ordinary (parseKeywords l) := by
  induction l with
  | nil => exact ordinary_pure _
  | cons x tail ih =>
    cases x with
    | list keyword var initform suppliedP => exact ih.bind fun _ => ordinary_pure _
    | symbol s =>
      refine ordinary_ite (ih.bind fun _ => ordinary_pure _) (ordinary_ite (ordinary_pure _) ?_)
      exact ih.bind fun _ => ordinary_pure _

theorem ordinary_parseAuxvars (l : List Parameter) : Ordinary (parseAuxvars l) := by
  induction l with
  | nil => exact ordinary_pure _
  | cons x tail ih =>
    cases x with
    | list keyword var initform suppliedP =>
      exact ordinary_ite (ordinary_throw id) (ih.bind fun _ => ordinary_pure _)
    | symbol s => exact ih.bind fun _ => ordinary_pure _

theorem ordinary_initCommon (lambdaList : List Parameter) (specials : List Symbol)
    (body : List Form) (env : ℕ) : Ordinary (initCommon lambdaList specials body env) := by
  unfold initCommon
  refine (ordinary_parseRequired _).bind fun r => ?_
  refine ordinary_section (ordinary_parseOptionals _) (ordinary_pure _) fun r => ?_
  refine ordinary_ite ((ordinary_parseRest _).bind fun _ => ?_) ?_
  all_goals
    refine ordinary_section (ordinary_parseKeywords _) (ordinary_pure _) fun r => ?_
    exact ordinary_section (ordinary_parseAuxvars _) (ordinary_pure _) fun _ => ordinary_pure _

structure Compositional (K : (α : Type) → Interp α → Prop) : Prop where
  bind {α β : Type} {m : Interp α} {g : α → Interp β} : K α m → (∀ a, K β (g a)) → K β (m >>= g)
  silent {α : Type} {m : Interp α} : Silent m → K α m
  error {α : Type} (e : LispError) : ¬ e.Lost → K α (exit (.error e))
  undefined {α : Type} : K α (exit .undefined)
  timeout {α : Type} : K α (exit .timeout)
  bindParameter (name : Symbol) (v : Value) : K Unit (do
    record (.bindParameter name)
    bindSpecial name v)

namespace Compositional

variable {K : (α : Type) → Interp α → Prop}

theorem pure (hK : Compositional K) (a : α) : K α (Pure.pure a) := hK.silent (silent_pure a)

theorem ite {c : Prop} [Decidable c] {m m' : Interp α} (hm : K α m) (hm' : K α m') :
    K α (if c then m else m') := by
  split
  · exact hm
  · exact hm'

theorem progn (hK : Compositional K) (hev : ∀ form env, K Value (ev form env)) (env : ℕ)
    (body : List Form) (result : Value) : K Value (Closure.progn ev env body result) := by
  induction body generalizing result with
  | nil => exact hK.pure result
  | cons form body ih => exact hK.bind (hev form env) fun v => ih v

theorem evalInitform (hK : Compositional K) (hev : ∀ form env, K Value (ev form env)) (env : ℕ)
    (form : Option Form) : K Value (evalInitform ev env form) := by
  cases form with
  | none => exact hK.pure _
  | some form => exact hev form env

theorem evalInitforms (hK : Compositional K) (hev : ∀ form env, K Value (ev form env)) (env : ℕ)
    (bindings : List (Symbol × Option Form)) :
    K (List Value) (evalInitforms ev env bindings) := by
  induction bindings with
  | nil => exact hK.pure []
  | cons binding bindings ih =>
    exact hK.bind (hK.evalInitform hev env binding.2) fun v => hK.bind ih fun vals => hK.pure _

theorem evalArgs (hK : Compositional K) (hev : ∀ form env, K Value (ev form env)) (env : ℕ)
    (forms : List Form) : K (List Value) (evalArgs ev env forms) := by
  induction forms with
  | nil => exact hK.pure []
  | cons form forms ih =>
    exact hK.bind (hev form env) fun v => hK.bind ih fun vals => hK.pure _

theorem evalAll (hK : Compositional K) (hev : ∀ form env, K Value (ev form env)) (env : ℕ)
    (forms : List Form) : K Unit (evalAll ev env forms) := by
  induction forms with
  | nil => exact hK.pure ()
  | cons form forms ih => exact hK.bind (hev form env) fun _ => ih

/-! ## Variables -/

theorem evalSymbol (hK : Compositional K) (name : Symbol) (env : ℕ) :
    K Value (evalSymbol name env) := by
  refine hK.bind (hK.silent silent_get) fun s => ?_
  dsimp only
  split
  · exact hK.pure _
  · exact hK.error _ id

theorem clSetq (hK : Compositional K) (hev : ∀ form env, K Value (ev form env)) (name : Symbol)
    (form : Form) (env : ℕ) : K Value (clSetq ev name form env) := by
  refine hK.bind (hK.silent silent_get) fun s => hK.bind (hev form env) fun v => ?_
  have hrest : K Value (do
      clearValues
      return v) := hK.bind (hK.silent silent_clearValues) fun _ => hK.pure v
  refine ite (hK.bind (hK.silent (silent_setSymbolValue _ _)) fun _ => hrest) ?_
  split
  · exact hK.bind (hK.silent (silent_setCell _ _)) fun _ => hrest
  · refine hK.bind (hK.silent ?_) fun _ => hrest
    exact silent_modify fun _ => ⟨rfl, rfl, rfl, rfl⟩

theorem clIf (hK : Compositional K) (hev : ∀ form env, K Value (ev form env))
    (test consequent : Form) (alternative : Option Form) (env : ℕ) :
    K Value (clIf ev test consequent alternative env) := by
  refine hK.bind (hev test env) fun v => ite (hev consequent env) ?_
  cases alternative with
  | none => exact hK.bind (hK.silent silent_clearValues) fun _ => hK.pure _
  | some form => exact hev form env

/-! ## Closures -/

variable {c : Closure}

theorem bindVar (hK : Compositional K) (name : Symbol) (v : Value) (env : ℕ) :
    K Unit (c.bind name v env) :=
  hK.bind (hK.silent silent_get) fun _ =>
    ite (hK.bindParameter name v) (hK.silent (silent_bindLexical env name v))

theorem bindTemp (hK : Compositional K) (name : Symbol) (v : Value) (temp : Option ℕ) :
    K Unit (c.bindTemp name v temp) := by
  cases temp with
  | none => exact hK.pure ()
  | some temp => exact hK.bindVar name v temp

theorem bindAll (hK : Compositional K) (env : ℕ) (names : List Symbol) (vals : List Value) :
    K Unit (c.bindAll env names vals) := by
  induction names generalizing vals with
  | nil =>
    unfold Closure.bindAll
    exact hK.pure ()
  | cons name names ih =>
    cases vals with
    | nil => exact hK.undefined
    | cons v vals => exact hK.bind (hK.bindVar name v env) fun _ => ih vals

theorem bindSupplied (hK : Compositional K) (name : Option Symbol) (v : Value)
    (temp : Option ℕ) : K (List Value) (c.bindSupplied name v temp) := by
  cases name with
  | none => exact hK.pure []
  | some name => exact hK.bind (hK.bindTemp name v temp) fun _ => hK.pure _

theorem initial (hK : Compositional K) (hev : ∀ form env, K Value (ev form env))
    (initform : Form) (initval : Option Value) (temp : Option ℕ) :
    K Value (Closure.initial ev initform initval temp) := by
  cases initval with
  | some v =>
    unfold Closure.initial
    exact hK.pure v
  | none =>
    cases temp with
    | none => exact hK.undefined
    | some temp => exact hev initform temp

theorem processRequired (hK : Compositional K) (temp : Option ℕ) (vars : List Symbol)
    (args : List Value) : K _ (c.processRequired temp vars args) := by
  induction vars generalizing args with
  | nil =>
    unfold Closure.processRequired
    exact hK.pure _
  | cons var vars ih =>
    cases args with
    | nil => exact hK.undefined
    | cons arg args =>
      exact hK.bind (hK.bindTemp var arg temp) fun _ => hK.bind (ih args) fun _ => hK.pure _

theorem optionalValue (hK : Compositional K) (hev : ∀ form env, K Value (ev form env))
    (op : OptionalParameter) (temp : Option ℕ) (args : List Value) :
    K _ (Closure.optionalValue ev op temp args) := by
  cases args with
  | nil => exact hK.bind (hK.initial hev _ _ _) fun _ => hK.pure _
  | cons arg args => exact hK.pure _

theorem processOptionals (hK : Compositional K) (hev : ∀ form env, K Value (ev form env))
    (temp : Option ℕ) (ops : List OptionalParameter) (args : List Value) :
    K _ (c.processOptionals ev temp ops args) := by
  induction ops generalizing args with
  | nil => exact hK.pure _
  | cons op ops ih =>
    refine hK.bind (hK.optionalValue hev op temp args) fun r => ?_
    refine hK.bind (hK.bindTemp _ _ _) fun _ => hK.bind (hK.bindSupplied _ _ _) fun _ => ?_
    exact hK.bind (ih r.2.2) fun _ => hK.pure _

theorem makeList (hK : Compositional K) (vals : List Value) :
    K Value (Closure.makeList vals) := by
  induction vals with
  | nil => exact hK.pure _
  | cons v vals ih => exact hK.bind ih fun _ => hK.silent (silent_makeObject _)

theorem processRest (hK : Compositional K) (temp : Option ℕ) (args : List Value) :
    K (List Value) (c.processRest temp args) := by
  unfold Closure.processRest
  split
  · exact hK.bind (hK.makeList args) fun _ => hK.bind (hK.bindTemp _ _ _) fun _ => hK.pure _
  · exact hK.pure []

theorem keywordValue (hK : Compositional K) (hev : ∀ form env, K Value (ev form env))
    (kp : KeywordParameter) (temp : Option ℕ) (args : List Value) :
    K _ (Closure.keywordValue ev kp temp args) := by
  unfold Closure.keywordValue
  split
  · exact hK.pure _
  · exact hK.bind (hK.initial hev _ _ _) fun _ => hK.pure _

theorem processKeywords (hK : Compositional K) (hev : ∀ form env, K Value (ev form env))
    (temp : Option ℕ) (args : List Value) (kps : List KeywordParameter) (allow : Option Value) :
    K _ (c.processKeywords ev temp args kps allow) := by
  induction kps generalizing allow with
  | nil => exact hK.pure _
  | cons kp kps ih =>
    refine hK.bind (hK.keywordValue hev kp temp args) fun r => ?_
    refine hK.bind (hK.bindTemp _ _ _) fun _ => hK.bind (hK.bindSupplied _ _ _) fun _ => ?_
    exact hK.bind (ih _) fun _ => hK.pure _

theorem scanKeywords (hK : Compositional K) (allowed : Bool) : ∀ (args : List Value)
    (allow unrecognized : Option Value), K _ (c.scanKeywords allowed args allow unrecognized)
  | [], _, _ => hK.pure _
  | [_], _, _ => ite (ite hK.undefined (hK.pure _)) (hK.pure _)
  | _ :: v :: args, allow, unrecognized =>
    ite
      (ite
        (ite (hK.pure _) (scanKeywords hK allowed args (some v) unrecognized))
        (scanKeywords hK allowed args allow unrecognized))
      (scanKeywords hK allowed args allow _)

theorem checkKeywords (hK : Compositional K) (args : List Value) (allow : Option Value) :
    K Unit (c.checkKeywords args allow) := by
  refine ite (hK.bind (hK.scanKeywords _ _ _ _) fun r => ?_) (hK.pure ())
  dsimp only
  split
  · exact ite (hK.pure ()) (hK.error _ id)
  · exact hK.pure ()

theorem processArgs (hK : Compositional K) (hev : ∀ form env, K Value (ev form env))
    (args : List Value) : K (List Value) (c.processArgs ev args) := by
  have htemp : K _ c.newTemp :=
    ite (hK.bind (hK.silent (silent_newEnvironment _)) fun _ => hK.pure _) (hK.pure _)
  refine hK.bind htemp fun temp => hK.bind (hK.processRequired temp _ args) fun r => ?_
  refine ite (hK.pure _) ?_
  refine hK.bind (hK.processOptionals hev temp _ r.2) fun r' => ?_
  refine hK.bind (hK.processRest temp r'.2) fun rest => ite (hK.error _ id) ?_
  refine hK.bind (hK.processKeywords hev temp r'.2 _ none) fun r'' => ?_
  exact hK.bind (hK.checkKeywords r'.2 r''.2) fun _ => hK.pure _

theorem bindAuxvars (hK : Compositional K) (hev : ∀ form env, K Value (ev form env)) (ext : ℕ)
    (auxvars : List (Symbol × Option Form)) : K Unit (c.bindAuxvars ev ext auxvars) := by
  induction auxvars with
  | nil => exact hK.pure ()
  | cons auxvar auxvars ih =>
    have hvalue : K Value (Closure.auxValue ev ext auxvar.2) := by
      cases auxvar.2 with
      | none => exact hK.pure _
      | some form => exact hev form ext
    exact hK.bind hvalue fun v => hK.bind (hK.bindVar _ v ext) fun _ => ih

theorem executeArray (hK : Compositional K) (hev : ∀ form env, K Value (ev form env))
    (args : List Value) : K Value (c.executeArray ev args) := by
  refine ite (hK.error _ id) ?_
  refine hK.bind (hK.silent (silent_newEnvironment _)) fun ext => ?_
  refine hK.bind (hK.silent (silent_declareSpecials ext _)) fun _ => ?_
  refine hK.bind (hK.processArgs hev args) fun vals => hK.bind (hK.bindAll ext _ vals) fun _ => ?_
  exact hK.bind (hK.bindAuxvars hev ext _) fun _ => hK.progn hev ext _ _

theorem execute (hK : Compositional K) (hev : ∀ form env, K Value (ev form env))
    (args : List Value) : K Value (c.execute ev args) := by
  refine ite ?_ (ite (hK.executeArray hev args) (hK.error _ id))
  refine hK.bind (hK.silent (silent_newEnvironment _)) fun ext => ?_
  refine hK.bind (hK.silent (silent_declareSpecials ext _)) fun _ => ?_
  exact hK.bind (hK.bindAll ext _ args) fun _ => hK.progn hev ext _ _

/-! ## Calls -/

theorem newClosure (hK : Compositional K) (lambdaList : List Parameter) (specials : List Symbol)
    (body : List Form) (env : ℕ) : K Closure (newClosure lambdaList specials body env) := by
  unfold Interpreter.newClosure
  split
  · exact hK.bind (hK.silent silent_clearValues) fun _ => hK.pure _
  · rename_i e h
    exact hK.error e (ordinary_initCommon _ _ _ _ e h)

theorem evalCall (hK : Compositional K) (hev : ∀ form env, K Value (ev form env)) (c : Closure)
    (args : List Form) (env : ℕ) : K Value (evalCall ev c args env) := by
  refine ite ?_ ?_
  · refine hK.bind (hK.evalArgs hev env _) fun vals => ite (hK.error _ id) ?_
    exact hK.bind (hK.silent silent_clearValues) fun _ => hK.execute hev vals
  · refine hK.bind (hK.evalArgs hev env _) fun vals => ?_
    exact hK.bind (hK.silent silent_clearValues) fun _ => hK.executeArray hev vals

theorem clFuncall (hK : Compositional K) (hev : ∀ form env, K Value (ev form env))
    (function : Form) (args : List Form) (env : ℕ) :
    K Value (clFuncall ev function args env) := by
  refine hK.bind (hev function env) fun f => hK.bind (hK.evalArgs hev env args) fun vals => ?_
  refine hK.bind (hK.silent silent_clearValues) fun _ => ite (hK.error _ id) ?_
  refine hK.bind (hK.silent silent_get) fun s => ?_
  split
  · split
    · split
      · exact ite (hK.error _ id) (ite (hK.execute hev vals) (hK.executeArray hev vals))
      · exact ite (hK.error _ id) (hK.executeArray hev vals)
    · exact hK.error _ id
  · exact hK.error _ id

theorem clValues (hK : Compositional K) (hev : ∀ form env, K Value (ev form env))
    (args : List Form) (env : ℕ) : K Value (clValues ev args env) := by
  refine hK.bind (hK.evalArgs hev env args) fun vals => ?_
  refine hK.bind (hK.silent silent_clearValues) fun _ => ?_
  exact ite (hK.silent (silent_setValuesArray vals)) (hK.error _ id)

end Compositional

/-! ## Contexts -/

theorem Keeps.bind {m : Interp α} {f : α → Interp β} (hm : Keeps p m) (hf : ∀ a, Keeps p (f a)) :
    Keeps p (m >>= f) := fun k => triple_bind (hm k) fun a => hf a k

theorem keeps_pure (a : α) : Keeps p (pure a : Interp α) := (silent_pure a).keeps

theorem keeps_timeout : Keeps p (exit .timeout : Interp α) := fun _ =>
  triple_exit fun _ h _ => h.history

theorem keeps_bindParameter (name : Symbol) (v : Value) : Keeps p (do
    record (.bindParameter name)
    bindSpecial name v) := by
  intro k
  refine triple_bind (triple_changeControl (Q := fun _ s => At p k s ∧ ¬ p.NoBind) ?_) fun _ => ?_
  · intro s h hmeets
    exact ⟨h.change h.chained (fun _ _ => rfl) rfl fun _ => trivial, fun hp => hp _ hmeets name rfl⟩
  · refine triple_modify (fun s => List.suffix_refl s.trace) ?_
    rintro s ⟨h, hbind⟩ -
    exact ⟨h.ok, h.chained, h.frames, h.tags, h.stack.trans (List.suffix_cons _ _),
      fun hp => absurd hp hbind, h.history⟩

theorem compositional_keeps (p : Policy) : Compositional fun _ m => Keeps p m where
  bind := Keeps.bind
  silent := Silent.keeps
  error _ he _ := triple_exit fun _ h _ => ⟨h.history, fun _ => he⟩
  undefined _ := triple_exit fun _ h _ => h.history
  timeout := keeps_timeout
  bindParameter := keeps_bindParameter

/-! ## LET -/

def Context.withStack (k : Context) (stack : List (Option Value × Symbol)) : Context :=
  { k with stack := stack }

/-- The context, with bindings that were made since the stack was `stack`. -/
def Within (p : Policy) (k : Context) (stack : List (Option Value × Symbol)) (s : Thread) : Prop :=
  ∃ more, (k.stack <:+ stack ∧ (p.NoBind → stack = k.stack) ∧ k.Ok) ∧ stack <:+ more ∧
    At p (k.withStack more) s

variable {stack : List (Option Value × Symbol)}

theorem At.within {s : Thread} (h : At p k s) : Within p k s.bindingStack s :=
  ⟨s.bindingStack, ⟨h.stack, h.exact, h.ok⟩, List.suffix_refl _,
    ⟨⟨fun f hf => (h.ok.depth f hf).trans h.stack.length_le, h.ok.tagsOf, h.ok.savedTagsOf⟩,
      h.chained, h.frames, h.tags, List.suffix_refl _, fun _ => rfl, h.history⟩⟩

theorem Left.of_withStack {more : List (Option Value × Symbol)} {e : Exit} {s : Thread}
    (hok : k.Ok) (hmore : k.stack <:+ more) (h : Left p (k.withStack more) e s) :
    Left p k e s := by
  cases e with
  | jump f index origin =>
    obtain ⟨before, after, hchain, harrived, hjumped⟩ := h
    have hmem : f ∈ k.chain := by
      change k.chain = _ at hchain
      rw [hchain]
      exact List.mem_append_right _ List.mem_cons_self
    refine ⟨before, after, hchain, ⟨harrived.chained, harrived.last, harrived.frames,
      harrived.tags, ?_, harrived.history⟩, ⟨hjumped.type, hjumped.goal, hjumped.tag⟩⟩
    exact harrived.stack.trans (drop_of_suffix hmore (hok.depth f hmem))
  | error e => exact h
  | int3 => exact h
  | undefined => exact h
  | timeout => exact h

theorem Keeps.within {m : Interp α} (hm : Keeps p m) :
    Triple p.guard (Within p k stack) m (fun _ => Within p k stack) (Left p k) := by
  refine triple_exists fun more => ?_
  have h := ((hm (k.withStack more)).frame (stack <:+ more)).frame
    (k.stack <:+ stack ∧ (p.NoBind → stack = k.stack) ∧ k.Ok)
  refine h.conseq (fun _ h => h) (fun _ _ h => ⟨more, h⟩) fun e s h => ?_
  exact h.2.2.of_withStack h.1.2.2 (h.1.1.trans h.2.1)

theorem triple_bindSpecial (name : Symbol) (v : Value) :
    Triple p.guard (Within p k stack) (bindSpecial name v) (fun _ => Within p k stack)
      (Left p k) := by
  refine triple_modify (fun s => List.suffix_refl s.trace) ?_
  rintro s ⟨more, hpure, hsuffix, h⟩ -
  refine ⟨(s.threadLocalValue name, name) :: s.bindingStack, hpure, ?_,
    ⟨fun f hf => ?_, h.ok.tagsOf, h.ok.savedTagsOf⟩, h.chained, h.frames, h.tags,
    List.suffix_refl _, fun _ => rfl, h.history⟩
  · exact (hsuffix.trans h.stack).trans (List.suffix_cons _ _)
  · exact (h.ok.depth f hf).trans (h.stack.length_le.trans (Nat.le_succ _))

theorem triple_bindVariable (specials : List Symbol) (ext : ℕ) (name : Symbol) (v : Value) :
    Triple p.guard (Within p k stack) (bindVariable specials ext name v)
      (fun _ => Within p k stack) (Left p k) := by
  refine triple_bind silent_get.keeps.within fun s => ?_
  refine triple_ite (fun _ => ?_) fun _ => triple_ite (fun _ => triple_bindSpecial name v) fun _ =>
    ?_
  · exact triple_bind (triple_bindSpecial name v) fun _ =>
      (silent_changeEnvironment _ _).keeps.within
  · exact (silent_bindLexical ext name v).keeps.within

theorem triple_bindVariables (specials : List Symbol) (ext : ℕ)
    (bindings : List (Symbol × Option Form)) (vals : List Value) :
    Triple p.guard (Within p k stack) (bindVariables specials ext bindings vals)
      (fun _ => Within p k stack) (Left p k) := by
  induction bindings generalizing vals with
  | nil =>
    unfold bindVariables
    exact (keeps_pure ()).within
  | cons binding bindings ih =>
    cases vals with
    | nil => exact (keeps_pure ()).within
    | cons v vals =>
      exact triple_bind (triple_bindVariable specials ext binding.1 v) fun _ => ih vals

theorem triple_bindSequentially (hev : Sound p ev) (specials : List Symbol) (ext : ℕ)
    (bindings : List (Symbol × Option Form)) :
    Triple p.guard (Within p k stack) (bindSequentially ev specials ext bindings)
      (fun _ => Within p k stack) (Left p k) := by
  induction bindings with
  | nil => exact (keeps_pure ()).within
  | cons binding bindings ih =>
    refine triple_bind ((compositional_keeps p).evalInitform hev ext binding.2).within fun v => ?_
    exact triple_bind (triple_bindVariable specials ext binding.1 v) fun _ => ih

theorem triple_unbindTo {E : Exit → Thread → Prop} :
    Triple p.guard (Within p k stack) (unbindTo stack.length) (fun _ => At p k) E := by
  refine triple_modify ?_ ?_
  · intro s
    change s.trace <:+ (unbind _ s).trace
    rw [(unbind_eq _ s).2.2.1]
  · rintro s ⟨more, ⟨hstack, hexact, hok⟩, hsuffix, h⟩ -
    obtain ⟨hcontrol, htags, htrace, hunbind⟩ := unbind_eq (s.bindingStack.length - stack.length) s
    have heq : (unbind (s.bindingStack.length - stack.length) s).bindingStack = stack := by
      rw [hunbind, drop_of_suffix (hsuffix.trans h.stack) le_rfl, Nat.sub_self, List.drop_zero]
    refine ⟨hok, ?_, ?_, ?_, ?_, ?_, ?_⟩
    · rw [hcontrol]
      exact h.chained
    · rw [hcontrol]
      exact h.frames
    · rw [htags]
      exact h.tags
    · rw [heq]
      exact hstack
    · rw [heq]
      exact hexact
    · rw [htrace]
      exact h.history

theorem keeps_letBody (hev : Sound p ev) {bind : ℕ → Interp Unit}
    (hbind : ∀ {k stack} ext, Triple p.guard (Within p k stack) (bind ext)
      (fun _ => Within p k stack) (Left p k)) (specials : List Symbol) (body : List Form)
    (env : ℕ) :
    Keeps p (do
      let s ← get
      let ext ← newEnvironment env
      bind ext
      declareSpecials ext specials
      let result ← Closure.progn ev ext body .nil
      unbindTo s.bindingStack.length
      return result) := by
  intro k
  refine triple_bind (triple_get (Q := fun s => Within p k s.bindingStack) fun s h _ => h.within)
    fun s => ?_
  refine triple_bind (silent_newEnvironment env).keeps.within fun ext => ?_
  refine triple_bind (hbind ext) fun _ => ?_
  refine triple_bind (silent_declareSpecials ext specials).keeps.within fun _ => ?_
  refine triple_bind ((compositional_keeps p).progn hev ext body .nil).within fun result => ?_
  exact triple_bind triple_unbindTo fun _ => keeps_pure result k

theorem keeps_clLet (hev : Sound p ev) (bindings : List (Symbol × Option Form))
    (specials : List Symbol) (body : List Form) (env : ℕ) :
    Keeps p (clLet ev bindings specials body env) := by
  have h := keeps_letBody (p := p) hev (fun ext =>
    triple_bind ((compositional_keeps p).evalInitforms hev env bindings).within fun vals =>
      triple_bindVariables specials ext bindings vals) specials body env
  simp only [bind_assoc] at h
  exact h

theorem keeps_clLetStar (hev : Sound p ev) (bindings : List (Symbol × Option Form))
    (specials : List Symbol) (body : List Form) (env : ℕ) :
    Keeps p (clLetStar ev bindings specials body env) :=
  keeps_letBody hev (fun ext => triple_bindSequentially hev specials ext bindings) specials body env

end Xcl.Interpreter
