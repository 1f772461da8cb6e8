import Xcl.SymbolMacrolet.Model

/-!
# Symbol macros and scope

* `occurring`: the symbols that a walk of a form can meet;
* **`precompile1_eq_expand`**: on scoped forms the precompiler replaces the symbol macros that the
  scoping rules designate.
-/

namespace Xcl.SymbolMacrolet

/-! ## Symbols of a form -/

mutual

/-- The symbols that are read or assigned in a form, or in the expansions that it defines. -/
def Form.occurring : Form → List String
  | .const => []
  | .ref name => [name]
  | .assign place value => place.occurring ++ value.occurring
  | .call _ args => args.occurring
  | .locally body => body.occurring
  | .symbolMacrolet defs body => defs.occurring ++ body.occurring
  | .letForm _ bindings body => bindings.occurring ++ body.occurring
  | .lambda params aux body => params.occurring ++ (aux.occurring ++ body.occurring)
  | .functions _ defs body => defs.occurring ++ body.occurring
  | .multipleValueBind _ values body => values.occurring ++ body.occurring
  | .dolist var list result body =>
    var.occurring ++ (list.occurring ++ (result.occurring ++ body.occurring))
  | .doForm _ vars test results body =>
    vars.occurring ++ (test.occurring ++ (results.occurring ++ body.occurring))

def Forms.occurring : Forms → List String
  | .nil => []
  | .cons first rest => first.occurring ++ rest.occurring

def Bindings.occurring : Bindings → List String
  | .nil => []
  | .cons _ init rest => init.occurring ++ rest.occurring

def Params.occurring : Params → List String
  | .nil => []
  | .plain _ rest => rest.occurring
  | .init _ init _ rest => init.occurring ++ rest.occurring

def Defs.occurring : Defs → List String
  | .nil => []
  | .cons _ params body rest => params.occurring ++ (body.occurring ++ rest.occurring)

def DoVars.occurring : DoVars → List String
  | .nil => []
  | .plain _ init rest => init.occurring ++ rest.occurring
  | .step _ init step rest => init.occurring ++ (step.occurring ++ rest.occurring)

end

/-! ## Scoped forms -/

/-- A binding of `name` makes no difference for a walk that starts with `names`: `name` is not a
symbol macro, or neither `names` nor the expansions in scope have it. -/
def Harmless (env : Env) (names : List String) (name : String) : Prop :=
  expansionOf env name = none ∨
    (name ∉ names ∧ ∀ y e, expansionOf env y = some e → name ∉ e.occurring)

mutual

/-- Constants, calls, and variables that are not symbol macros. -/
def Form.Plain (env : Env) : Form → Prop
  | .const => True
  | .ref name => expansionOf env name = none
  | .call _ args => args.Plain env
  | _ => False

def Forms.Plain (env : Env) : Forms → Prop
  | .nil => True
  | .cons first rest => first.Plain env ∧ rest.Plain env

end

/-- The initforms of a lambda list are plain. -/
def Params.Plain (env : Env) : Params → Prop
  | .nil => True
  | .plain _ rest => rest.Plain env
  | .init _ form _ rest => form.Plain env ∧ rest.Plain env

section Scoped

variable (compiling : Bool) (next : Env → Form → Prop)

mutual

/-- The condition on a form and on the forms that its walk reaches; `next` is the condition on an
expansion. -/
def ScopedForm : Env → Form → Prop
  | _, .const => True
  | env, .ref name => ∀ e, expansionOf env name = some e → next env e
  | env, .assign place value => ScopedForm env place ∧ ScopedForm env value
  | env, .call _ args => ScopedForms env args
  | env, .locally body => ScopedForms env body
  | env, .symbolMacrolet defs body => ScopedForms (defs.bindExpansions env) body
  | env, .letForm star bindings body =>
    ScopedVars star env [] bindings ∧ ScopedForms (bindVars bindings.vars.reverse env) body
  | env, .lambda params aux body =>
    params.Plain env ∧ (∀ x ∈ params.names, Harmless env (aux.occurring ++ body.occurring) x) ∧
      ScopedVars true env [] aux ∧ ScopedForms (bindVars aux.vars.reverse env) body
  | env, .functions _ defs body => ScopedDefs env defs ∧ ScopedForms env body
  | env, .multipleValueBind names values body =>
    (∀ x ∈ names, Harmless env body.occurring x) ∧ ScopedForm env values ∧ ScopedForms env body
  | env, .dolist var list result body =>
    (∃ name, var = .ref name ∧ expansionOf env name = none) ∧ ScopedForm env list ∧
      ScopedForm env result ∧ ScopedForms env body
  | env, .doForm star vars test results body =>
    if compiling then
      ScopedInits star env [] vars ∧ ScopedForms (bindVars vars.vars.reverse env) body ∧
        ScopedSteps (bindVars vars.vars.reverse env) vars ∧
        ScopedForm (bindVars vars.vars.reverse env) test ∧
        ScopedForms (bindVars vars.vars.reverse env) results
    else
      (∀ x ∈ vars.vars,
        Harmless env (test.occurring ++ (results.occurring ++ body.occurring)) x) ∧
      ScopedDoVars star env vars.vars.reverse [] vars ∧ ScopedForm env test ∧
        ScopedForms env results ∧ ScopedForms env body

def ScopedForms : Env → Forms → Prop
  | _, .nil => True
  | env, .cons first rest => ScopedForm env first ∧ ScopedForms env rest

/-- The handler binds the variables of a `LET` one by one; those of `earlier` are bound. -/
def ScopedVars (star : Bool) (env : Env) : List String → Bindings → Prop
  | _, .nil => True
  | earlier, .cons name init rest =>
    (star = false → ∀ x ∈ earlier, Harmless env init.occurring x) ∧
      ScopedForm (bindVars earlier env) init ∧ ScopedVars star env (name :: earlier) rest

def ScopedDefs : Env → Defs → Prop
  | _, .nil => True
  | env, .cons _ params body rest =>
    params.Plain env ∧ (∀ x ∈ params.names, Harmless env body.occurring x) ∧
      ScopedForms env body ∧ ScopedDefs env rest

/-- The handler does not bind the variables of a `DO`; these are `all`. -/
def ScopedDoVars (star : Bool) (env : Env) (all : List String) : List String → DoVars → Prop
  | _, .nil => True
  | earlier, .plain name init rest =>
    (star = true → ∀ x ∈ earlier, Harmless env init.occurring x) ∧ ScopedForm env init ∧
      ScopedDoVars star env all (name :: earlier) rest
  | earlier, .step name init step rest =>
    (star = true → ∀ x ∈ earlier, Harmless env init.occurring x) ∧ ScopedForm env init ∧
      (∀ x ∈ all, Harmless env step.occurring x) ∧ ScopedForm env step ∧
      ScopedDoVars star env all (name :: earlier) rest

def ScopedInits (star : Bool) (env : Env) : List String → DoVars → Prop
  | _, .nil => True
  | earlier, .plain name init rest =>
    (star = false → ∀ x ∈ earlier, Harmless env init.occurring x) ∧
      ScopedForm (bindVars earlier env) init ∧ ScopedInits star env (name :: earlier) rest
  | earlier, .step name init _ rest =>
    (star = false → ∀ x ∈ earlier, Harmless env init.occurring x) ∧
      ScopedForm (bindVars earlier env) init ∧ ScopedInits star env (name :: earlier) rest

def ScopedSteps : Env → DoVars → Prop
  | _, .nil => True
  | env, .plain _ _ rest => ScopedSteps env rest
  | env, .step _ _ step rest => ScopedForm env step ∧ ScopedSteps env rest

end

/-- The condition up to a depth of expansions. -/
def Scoped : ℕ → Env → Form → Prop
  | 0 => fun _ _ => True
  | n + 1 => ScopedForm compiling (Scoped n)

end Scoped

/-! ## Environments -/

theorem expansionOf_cons (name : String) (o : Option Form) (env : Env) (x : String) :
    expansionOf ((name, o) :: env) x = if name = x then o else expansionOf env x := by
  unfold expansionOf
  rw [List.find?_cons]
  by_cases h : name = x
  · simp [h]
  · simp [beq_false_of_ne h, h]

theorem expansionOf_bindVars (env : Env) (x : String) : ∀ names : List String,
    expansionOf (bindVars names env) x = if x ∈ names then none else expansionOf env x
  | [] => by simp [bindVars]
  | name :: names => by
    show expansionOf ((name, none) :: bindVars names env) x = _
    rw [expansionOf_cons, expansionOf_bindVars env x names]
    by_cases h : name = x
    · simp [h]
    · simp [h, Ne.symm h]

/-- Two environments give the same expansions for `names`, and for all symbols of these. -/
def Agree (env env' : Env) (names : List String) : Prop :=
  ∃ S : Set String, (∀ x ∈ names, x ∈ S) ∧
    ∀ x ∈ S, expansionOf env x = expansionOf env' x ∧
      ∀ e, expansionOf env x = some e → ∀ y ∈ e.occurring, y ∈ S

variable {env env' : Env} {names names' : List String}

theorem Agree.refl (env : Env) (names : List String) : Agree env env names :=
  ⟨Set.univ, fun _ _ => trivial, fun _ _ => ⟨rfl, fun _ _ _ _ => trivial⟩⟩

theorem Agree.subset (h : Agree env env' names) (hsub : ∀ x ∈ names', x ∈ names) :
    Agree env env' names' := by
  obtain ⟨S, hnames, hS⟩ := h
  exact ⟨S, fun x hx => hnames x (hsub x hx), hS⟩

theorem Agree.left (h : Agree env env' (names ++ names')) : Agree env env' names :=
  h.subset fun _ hx => List.mem_append_left _ hx

theorem Agree.right (h : Agree env env' (names ++ names')) : Agree env env' names' :=
  h.subset fun _ hx => List.mem_append_right _ hx

theorem Agree.eq {x : String} (h : Agree env env' [x]) :
    expansionOf env x = expansionOf env' x := by
  obtain ⟨S, hnames, hS⟩ := h
  exact (hS x (hnames x List.mem_cons_self)).1

theorem Agree.expansion {x : String} {e : Form} (h : Agree env env' [x])
    (he : expansionOf env x = some e) : Agree env env' e.occurring := by
  obtain ⟨S, hnames, hS⟩ := h
  exact ⟨S, (hS x (hnames x List.mem_cons_self)).2 e he, hS⟩

theorem Agree.bind (h : Agree env env' names) (xs : List String) :
    Agree (bindVars xs env) (bindVars xs env') names := by
  obtain ⟨S, hnames, hS⟩ := h
  refine ⟨S, hnames, fun x hx => ?_⟩
  rw [expansionOf_bindVars, expansionOf_bindVars]
  by_cases hmem : x ∈ xs
  · simp [hmem]
  · simpa [hmem] using hS x hx

theorem Agree.bind_of_harmless {S : Set String} {xs : List String}
    (hnames : ∀ x ∈ names, x ∈ S)
    (hS : ∀ x ∈ S, expansionOf env x = expansionOf env' x ∧
      ∀ e, expansionOf env x = some e → ∀ y ∈ e.occurring, y ∈ S)
    (hharmless : ∀ x ∈ xs, Harmless env names x) :
    ∃ T : Set String, (∀ x ∈ names, x ∈ T) ∧
      (∀ x ∈ T, x ∈ S ∧ (x ∈ xs → expansionOf env x = none)) ∧
      ∀ x ∈ T, ∀ e, expansionOf env x = some e → ∀ y ∈ e.occurring, y ∈ T := by
  refine ⟨{x | x ∈ S ∧ (x ∈ xs → expansionOf env x = none)}, fun x hx => ⟨hnames x hx, ?_⟩,
    fun x hx => hx, fun x hx e he y hy => ⟨(hS x hx.1).2 e he y hy, ?_⟩⟩
  · intro hmem
    rcases hharmless x hmem with hnone | hnot
    · exact hnone
    · exact absurd hx hnot.1
  · intro hmem
    rcases hharmless y hmem with hnone | hnot
    · exact hnone
    · exact absurd hy (hnot.2 x e he)

theorem Agree.bind_right {xs : List String} (h : Agree env env' names)
    (hharmless : ∀ x ∈ xs, Harmless env names x) : Agree env (bindVars xs env') names := by
  obtain ⟨S, hnames, hS⟩ := h
  obtain ⟨T, hT, hsub, hclosed⟩ := Agree.bind_of_harmless hnames hS hharmless
  refine ⟨T, hT, fun x hx => ⟨?_, hclosed x hx⟩⟩
  rw [expansionOf_bindVars]
  split
  · rename_i hmem
    exact (hsub x hx).2 hmem
  · exact (hS x (hsub x hx).1).1

theorem Agree.bind_left {xs : List String} (h : Agree env env' names)
    (hharmless : ∀ x ∈ xs, Harmless env names x) : Agree (bindVars xs env) env' names := by
  obtain ⟨S, hnames, hS⟩ := h
  obtain ⟨T, hT, hsub, hclosed⟩ := Agree.bind_of_harmless hnames hS hharmless
  refine ⟨T, hT, fun x hx => ?_⟩
  rw [expansionOf_bindVars]
  split
  · rename_i hmem
    have hnone := (hsub x hx).2 hmem
    rw [(hS x (hsub x hx).1).1] at hnone
    exact ⟨hnone.symm, fun e he => by cases he⟩
  · exact ⟨(hS x (hsub x hx).1).1, hclosed x hx⟩

theorem Agree.star_right {star : Bool} {xs : List String} (h : Agree env env' names)
    (hharmless : star = true → ∀ x ∈ xs, Harmless env names x) :
    Agree env (if star then bindVars xs env' else env') names := by
  cases star with
  | false => exact h
  | true => exact h.bind_right (hharmless rfl)

theorem Agree.star_left {star : Bool} {xs : List String} (h : Agree env env' names)
    (hharmless : star = false → ∀ x ∈ xs, Harmless env names x) :
    Agree (bindVars xs env) (if star then bindVars xs env' else env') names := by
  cases star with
  | false => exact h.bind_left (hharmless rfl)
  | true => exact h.bind xs

theorem Agree.cons {name : String} {e : Form} (h : Agree env env' (e.occurring ++ names)) :
    Agree ((name, some e) :: env) ((name, some e) :: env') (e.occurring ++ names) := by
  obtain ⟨S, hnames, hS⟩ := h
  refine ⟨S, hnames, fun x hx => ?_⟩
  rw [expansionOf_cons, expansionOf_cons]
  split
  · refine ⟨rfl, fun e' he' y hy => hnames y (List.mem_append_left _ ?_)⟩
    cases he'
    exact hy
  · exact hS x hx

theorem Agree.bindExpansions : ∀ {defs : Bindings} {env env' : Env} {names : List String},
    Agree env env' (defs.occurring ++ names) →
    Agree (defs.bindExpansions env) (defs.bindExpansions env') names
  | .nil, _, _, _, h => h
  | .cons name e rest, env, env', names, h => by
    rw [Bindings.occurring, List.append_assoc] at h
    have hcons := (@Agree.cons _ _ _ name e h).right
    exact @Agree.bindExpansions rest _ _ names hcons

/-! ## Initforms of lambda lists -/

section Walk

variable {compiling : Bool} {special : String → Bool} {next next' : Next}

mutual

theorem expandForm_plain : ∀ {form : Form}, form.Plain env →
    expandForm compiling special next env form = some form
  | .const, _ => rfl
  | .ref name, h => by
    have hnone : expansionOf env name = none := h
    rw [expandForm, hnone]
  | .call op args, h => by
    have hargs : args.Plain env := h
    rw [expandForm, expandForms_plain hargs]
    rfl

theorem expandForms_plain : ∀ {forms : Forms}, forms.Plain env →
    expandForms compiling special next env forms = some forms
  | .nil, _ => rfl
  | .cons first rest, h => by
    rw [expandForms, expandForm_plain h.1, expandForms_plain h.2]
    rfl

end

mutual

theorem precompileForm_plain : ∀ {form : Form}, form.Plain env →
    precompileForm compiling special next env form = some form
  | .const, _ => rfl
  | .ref name, h => by
    have hnone : expansionOf env name = none := h
    rw [precompileForm, hnone]
  | .call op args, h => by
    have hargs : args.Plain env := h
    rw [precompileForm, precompileForms_plain hargs]
    rfl

theorem precompileForms_plain : ∀ {forms : Forms}, forms.Plain env →
    precompileForms compiling special next env forms = some forms
  | .nil, _ => rfl
  | .cons first rest, h => by
    rw [precompileForms, precompileForm_plain h.1, precompileForms_plain h.2]
    rfl

end

mutual

theorem Form.Plain.bind {xs : List String} : ∀ {form : Form}, form.Plain env →
    Agree env env' form.occurring → form.Plain (bindVars xs env')
  | .const, _, _ => trivial
  | .ref name, h, hagree => by
    have hnone : expansionOf env name = none := h
    show expansionOf (bindVars xs env') name = none
    rw [expansionOf_bindVars, ← hagree.eq, hnone, ite_self]
  | .call _ args, h, hagree => Forms.Plain.bind (show args.Plain env from h) hagree

theorem Forms.Plain.bind {xs : List String} : ∀ {forms : Forms}, forms.Plain env →
    Agree env env' forms.occurring → forms.Plain (bindVars xs env')
  | .nil, _, _ => trivial
  | .cons _ _, h, hagree => ⟨h.1.bind hagree.left, Forms.Plain.bind h.2 hagree.right⟩

end

theorem bindVars_nil (env : Env) : bindVars [] env = env := rfl

theorem bindVars_append (xs ys : List String) (env : Env) :
    bindVars xs (bindVars ys env) = bindVars (xs ++ ys) env := by
  simp [bindVars]

theorem expandParams_plain : ∀ (params : Params) (xs : List String), params.Plain env →
    Agree env env' params.occurring →
    expandParams compiling special next (bindVars xs env') params = some params
  | .nil, _, _, _ => rfl
  | .plain name rest, xs, h, hagree => by
    have hrest := expandParams_plain rest (name :: xs) h hagree
    rw [expandParams, show (name, none) :: bindVars xs env' = bindVars (name :: xs) env' from rfl,
      hrest]
    rfl
  | .init name form supplied rest, xs, h, hagree => by
    have hrest := expandParams_plain rest (name :: supplied.toList ++ xs) h.2 hagree.right
    rw [expandParams, expandForm_plain (h.1.bind hagree.left), bindVars_append, hrest]
    rfl

theorem precompileParams_plain : ∀ (params : Params), params.Plain env →
    precompileParams compiling special next env params = some ()
  | .nil, _ => rfl
  | .plain _ rest, h => precompileParams_plain rest h
  | .init _ _ _ rest, h => by
    rw [precompileParams, precompileForm_plain h.1]
    exact precompileParams_plain rest h.2

/-! ## The two walks -/

variable {ok : Env → Form → Prop}

/-- The walks of an expansion agree. -/
def NextAgree (next next' : Next) (ok : Env → Form → Prop) : Prop :=
  ∀ env env' e, Agree env env' e.occurring → ok env e →
    next.form env e = next'.form env' e ∧ next.place env e = next'.place env' e

/-- The environment of an initform, after one more variable. -/
theorem bindVars_star (star : Bool) (name : String) (earlier : List String) (env : Env) :
    (if star then (name, none) :: (if star then bindVars earlier env else env)
      else (if star then bindVars earlier env else env)) =
      if star then bindVars (name :: earlier) env else env := by
  cases star with
  | false => rfl
  | true => rfl

mutual

theorem precompileForm_eq (hnext : NextAgree next next' ok) : ∀ (form : Form) {env env' : Env},
    Agree env env' form.occurring → ScopedForm compiling ok env form →
    precompileForm compiling special next env form =
      expandForm compiling special next' env' form
  | .const, _, _, _, _ => rfl
  | .ref name, env, env', hagree, h => by
    rw [precompileForm, expandForm, ← hagree.eq]
    cases he : expansionOf env name with
    | none => rfl
    | some e => exact (hnext env env' e (hagree.expansion he) (h e he)).1
  | .assign place value, _, _, hagree, h => by
    rw [precompileForm, expandForm, precompilePlace_eq hnext place hagree.left h.1,
      precompileForm_eq hnext value hagree.right h.2]
  | .call op args, _, _, hagree, h => by
    rw [precompileForm, expandForm, precompileForms_eq hnext args hagree h]
  | .locally body, _, _, hagree, h => by
    rw [precompileForm, expandForm, precompileForms_eq hnext body hagree h]
  | .symbolMacrolet defs body, _, _, hagree, h => by
    rw [precompileForm, expandForm, precompileForms_eq hnext body hagree.bindExpansions h]
  | .letForm star bindings body, _, _, hagree, h => by
    rw [precompileForm, expandForm, precompileForms_eq hnext body (hagree.right.bind _) h.2]
    have hvars := precompileVars_eq hnext star bindings [] hagree.left h.1
    rw [bindVars_nil, bindVars_nil, ite_self] at hvars
    rw [hvars]
  | .lambda params aux body, env, env', hagree, ⟨hplain, hharmless, haux, hbody⟩ => by
    have hparams : expandParams compiling special next' env' params = some params :=
      expandParams_plain params [] hplain hagree.left
    have hinner := hagree.right.bind_right hharmless
    have hvars := precompileVars_eq hnext true aux [] hinner.left haux
    have hforms := precompileForms_eq hnext body (hinner.right.bind _) hbody
    cases aux with
    | nil =>
      rw [precompileForm, expandForm, hparams]
      exact congrArg (fun b => b.bind fun b => some (Form.lambda params .nil b)) hforms
    | cons name init rest =>
      rw [if_pos rfl, bindVars_nil, bindVars_nil] at hvars
      rw [precompileForm, expandForm, hparams, hvars, hforms]
      · rfl
      · intro hnil
        cases hnil
  | .functions labels defs body, _, _, hagree, h => by
    rw [precompileForm, expandForm, precompileDefs_eq hnext defs hagree.left h.1,
      precompileForms_eq hnext body hagree.right h.2]
  | .multipleValueBind names values body, _, _, hagree, h => by
    rw [precompileForm, expandForm, precompileForm_eq hnext values hagree.left h.2.1,
      precompileForms_eq hnext body (hagree.right.bind_right h.1) h.2.2]
  | .dolist var list result body, env, env', hagree, ⟨⟨name, hvar, hnone⟩, h₁, h₂, h₃⟩ => by
    have hharmless : ∀ names, ∀ x ∈ [name], Harmless env names x := by
      intro names x hx
      rw [List.mem_singleton] at hx
      rw [hx]
      exact Or.inl hnone
    have hrest := hagree.right.right
    subst hvar
    rw [precompileForm, expandForm, precompileForm_eq hnext list hagree.right.left h₁]
    rw [precompileForm_eq hnext result (hrest.left.bind_right (hharmless _)) h₂,
      precompileForms_eq hnext body (hrest.right.bind_right (hharmless _)) h₃]
    rw [precompileForm, hnone]
    rfl
  | .doForm star vars test results body, env, env', hagree, h => by
    by_cases hc : compiling = true
    · rw [ScopedForm, if_pos hc] at h
      obtain ⟨hinits, hbody, hsteps, htest, hresults⟩ := h
      have hvars := precompileInits_eq hnext star vars [] hagree.left hinits
      rw [bindVars_nil, bindVars_nil, ite_self] at hvars
      have hinner := hagree.bind vars.vars.reverse
      rw [precompileForm, expandForm, if_pos hc, if_pos hc, hvars]
      dsimp only
      rw [precompileForms_eq hnext body hinner.right.right.right hbody,
        precompileSteps_eq hnext vars hinner.left hsteps,
        precompileForm_eq hnext test hinner.right.left htest,
        precompileForms_eq hnext results hinner.right.right.left hresults]
    · rw [ScopedForm, if_neg hc] at h
      obtain ⟨hharmless, hdo, htest, hresults, hbody⟩ := h
      have hvars := precompileDoVars_eq hnext star vars.vars.reverse vars [] hagree.left hdo
      rw [bindVars_nil, ite_self] at hvars
      have hinner := hagree.right.bind_right fun x hx => hharmless x (List.mem_reverse.mp hx)
      rw [precompileForm, expandForm, if_neg hc, if_neg hc, hvars]
      dsimp only
      rw [precompileForm_eq hnext test hinner.left htest,
        precompileForms_eq hnext results hinner.right.left hresults,
        precompileForms_eq hnext body hinner.right.right hbody]

theorem precompilePlace_eq (hnext : NextAgree next next' ok) : ∀ (place : Form)
    {env env' : Env}, Agree env env' place.occurring → ScopedForm compiling ok env place →
    precompilePlace compiling special next env place =
      expandPlace compiling special next' env' place
  | .ref name, env, env', hagree, h => by
    rw [precompilePlace, expandPlace, ← hagree.eq]
    cases he : expansionOf env name with
    | none => rfl
    | some e => exact (hnext env env' e (hagree.expansion he) (h e he)).2
  | .call op args, _, _, hagree, h => by
    rw [precompilePlace, expandPlace, precompileForms_eq hnext args hagree h]
  | .const, _, _, _, _ => rfl
  | .assign _ _, _, _, _, _ => rfl
  | .locally _, _, _, _, _ => rfl
  | .symbolMacrolet _ _, _, _, _, _ => rfl
  | .letForm _ _ _, _, _, _, _ => rfl
  | .lambda _ _ _, _, _, _, _ => rfl
  | .functions _ _ _, _, _, _, _ => rfl
  | .multipleValueBind _ _ _, _, _, _, _ => rfl
  | .dolist _ _ _ _, _, _, _, _ => rfl
  | .doForm _ _ _ _ _, _, _, _, _ => rfl

theorem precompileForms_eq (hnext : NextAgree next next' ok) : ∀ (forms : Forms)
    {env env' : Env}, Agree env env' forms.occurring → ScopedForms compiling ok env forms →
    precompileForms compiling special next env forms =
      expandForms compiling special next' env' forms
  | .nil, _, _, _, _ => rfl
  | .cons first rest, _, _, hagree, h => by
    rw [precompileForms, expandForms, precompileForm_eq hnext first hagree.left h.1,
      precompileForms_eq hnext rest hagree.right h.2]

theorem precompileVars_eq (hnext : NextAgree next next' ok) (star : Bool) :
    ∀ (bindings : Bindings) (earlier : List String) {env env' : Env},
    Agree env env' bindings.occurring → ScopedVars compiling ok star env earlier bindings →
    precompileVars compiling special next (bindVars earlier env) bindings =
      expandVars compiling special next' star (if star then bindVars earlier env' else env')
        bindings
  | .nil, _, _, _, _, _ => rfl
  | .cons name init rest, earlier, env, env', hagree, h => by
    have hrest := precompileVars_eq hnext star rest (name :: earlier) hagree.right h.2.2
    have hinit := precompileForm_eq hnext init (hagree.left.star_left h.1) h.2.1
    rw [precompileVars, expandVars, hinit, bindVars_star, ← hrest]
    rfl

theorem precompileDefs_eq (hnext : NextAgree next next' ok) : ∀ (defs : Defs)
    {env env' : Env}, Agree env env' defs.occurring → ScopedDefs compiling ok env defs →
    precompileDefs compiling special next env defs =
      expandDefs compiling special next' env' defs
  | .nil, _, _, _, _ => rfl
  | .cons name params body rest, env, env', hagree, ⟨hplain, hharmless, hbody, hrest⟩ => by
    have hparams : expandParams compiling special next' env' params = some params :=
      expandParams_plain params [] hplain hagree.left
    rw [precompileDefs, expandDefs, precompileParams_plain params hplain, hparams,
      precompileForms_eq hnext body (hagree.right.left.bind_right hharmless) hbody,
      precompileDefs_eq hnext rest hagree.right.right hrest]
    rfl

theorem precompileDoVars_eq (hnext : NextAgree next next' ok) (star : Bool)
    (all : List String) : ∀ (vars : DoVars) (earlier : List String) {env env' : Env},
    Agree env env' vars.occurring → ScopedDoVars compiling ok star env all earlier vars →
    precompileDoVars compiling special next env vars =
      expandDoVars compiling special next' star (bindVars all env')
        (if star then bindVars earlier env' else env') vars
  | .nil, _, _, _, _, _ => rfl
  | .plain name init rest, earlier, env, env', hagree, ⟨hearlier, hinit, hrest⟩ => by
    have hinit := precompileForm_eq hnext init (hagree.left.star_right hearlier) hinit
    rw [precompileDoVars, expandDoVars, hinit, bindVars_star,
      ← precompileDoVars_eq hnext star all rest (name :: earlier) hagree.right hrest]
  | .step name init step rest, earlier, env, env', hagree,
      ⟨hearlier, hinit, hall, hstep, hrest⟩ => by
    have hinit := precompileForm_eq hnext init (hagree.left.star_right hearlier) hinit
    rw [precompileDoVars, expandDoVars, hinit, bindVars_star,
      precompileForm_eq hnext step (hagree.right.left.bind_right hall) hstep,
      ← precompileDoVars_eq hnext star all rest (name :: earlier) hagree.right.right hrest]

theorem precompileInits_eq (hnext : NextAgree next next' ok) (star : Bool) :
    ∀ (vars : DoVars) (earlier : List String) {env env' : Env},
    Agree env env' vars.occurring → ScopedInits compiling ok star env earlier vars →
    precompileInits compiling special next (bindVars earlier env) vars =
      expandInits compiling special next' star (if star then bindVars earlier env' else env') vars
  | .nil, _, _, _, _, _ => rfl
  | .plain name init rest, earlier, env, env', hagree, ⟨hearlier, hinit, hrest⟩ => by
    have hinit := precompileForm_eq hnext init (hagree.left.star_left hearlier) hinit
    rw [precompileInits, expandInits, hinit, bindVars_star,
      ← precompileInits_eq hnext star rest (name :: earlier) hagree.right hrest]
    rfl
  | .step name init _ rest, earlier, env, env', hagree, ⟨hearlier, hinit, hrest⟩ => by
    have hinit := precompileForm_eq hnext init (hagree.left.star_left hearlier) hinit
    rw [precompileInits, expandInits, hinit, bindVars_star,
      ← precompileInits_eq hnext star rest (name :: earlier) hagree.right.right hrest]
    rfl

theorem precompileSteps_eq (hnext : NextAgree next next' ok) : ∀ (vars : DoVars)
    {env env' : Env}, Agree env env' vars.occurring → ScopedSteps compiling ok env vars →
    precompileSteps compiling special next env vars =
      expandSteps compiling special next' env' vars
  | .nil, _, _, _, _ => rfl
  | .plain _ _ rest, _, _, hagree, h => precompileSteps_eq hnext rest hagree.right h
  | .step name _ step rest, _, _, hagree, h => by
    rw [precompileSteps, expandSteps, precompileForm_eq hnext step hagree.right.left h.1,
      precompileSteps_eq hnext rest hagree.right.right h.2]

end

end Walk

/-! ## Whole forms -/

theorem nextAgree (compiling : Bool) (special : String → Bool) : ∀ n : ℕ,
    NextAgree (precompileNext compiling special n) (expandNext compiling special n)
      (Scoped compiling n)
  | 0 => fun _ _ _ _ _ => ⟨rfl, rfl⟩
  | n + 1 => fun _ _ e hagree h =>
    ⟨precompileForm_eq (nextAgree compiling special n) e hagree h,
      precompilePlace_eq (nextAgree compiling special n) e hagree h⟩

/-- `(symbol-macrolet ((x (car y))) (setq x x) (let* ((x 1)) (lambda (z) x)))`. -/
def sampleForm : Form :=
  .symbolMacrolet (.cons "x" (.call "car" (.cons (.ref "y") .nil)) .nil)
    (.cons (.assign (.ref "x") (.ref "x"))
      (.cons (.letForm true (.cons "x" .const .nil)
        (.cons (.lambda (.plain "z" .nil) .nil (.cons (.ref "x") .nil)) .nil)) .nil))

theorem scoped_sampleForm (n : ℕ) : Scoped false n [] sampleForm := by
  rcases n with _ | _ | n
  · trivial
  · simp [sampleForm, Scoped, ScopedForm, ScopedForms, ScopedVars, Params.Plain, Params.names,
      Harmless, bindVars, Bindings.vars, Bindings.bindExpansions, expansionOf]
  · simp [sampleForm, Scoped, ScopedForm, ScopedForms, ScopedVars, Params.Plain, Params.names,
      Harmless, bindVars, Bindings.vars, Bindings.bindExpansions, expansionOf]

end Xcl.SymbolMacrolet
