import Xcl.RewriteLambda.Model

/-!
# Steps of a call

* `Quiet`, `withSpecial_run`: a special binding moves over steps that evaluate nothing.
-/

namespace Xcl.RewriteLambda

open Binding

variable {Symbol Form Value World Exit α : Type} [DecidableEq Symbol]
  {obj : Objects Symbol Value Exit}
  {ev : Form → Env Symbol → Computation Symbol Value World Exit Value}

theorem run_append (steps steps' : List (Step Symbol Form Value)) (ctx : Context Symbol Value)
    (k : Context Symbol Value → Computation Symbol Value World Exit α) :
    run obj ev (steps ++ steps') ctx k =
      run obj ev steps ctx fun ctx => run obj ev steps' ctx k := by
  induction steps generalizing ctx with
  | nil => rfl
  | cons step steps ih =>
    obtain ⟨special, name, value⟩ | ⟨special, name, form⟩ | ⟨_ | problem⟩ := step
    · simp only [List.cons_append, run, ih]
    · simp only [List.cons_append, run, ih]
    · simp only [List.cons_append, run, ih]
    · rfl

/-! ## Special bindings and other bindings -/

section Commute

variable (s : Symbol) (v : Value)

theorem withSpecial_withSpecial {t : Symbol} (hne : s ≠ t) (w : Value)
    (c : Computation Symbol Value World Exit α) :
    withSpecial s v (withSpecial t w c) = withSpecial t w (withSpecial s v c) := by
  funext st
  simp only [withSpecial, Function.update_of_ne hne, Function.update_of_ne (Ne.symm hne),
    Function.update_comm hne]

theorem withSpecial_withCell (w : Value) (f : ℕ → Computation Symbol Value World Exit α) :
    withSpecial s v (withCell w f) = withCell w fun n => withSpecial s v (f n) := rfl

theorem withSpecial_exit (e : Exit) :
    withSpecial s v (fun st => (.error e, st) : Computation Symbol Value World Exit α) =
      fun st => (.error e, st) := by
  funext st
  simp [withSpecial]

theorem withSpecial_bindName {special : Bool} {name : Name Symbol} (hne : name ≠ .source s)
    (w : Value) (ctx : Context Symbol Value)
    (k : Context Symbol Value → Computation Symbol Value World Exit α) :
    withSpecial s v (bindName special name w
        { ctx with env := Function.update ctx.env s (some .special) } k) =
      bindName special name w ctx fun ctx =>
        withSpecial s v (k { ctx with env := Function.update ctx.env s (some .special) }) := by
  cases name with
  | gensym n => rfl
  | source t =>
    have ht : t ≠ s := fun h => hne (congrArg Name.source h)
    cases special with
    | true =>
      simp only [bindName, withVariable, if_true, withSpecial_withSpecial s v (Ne.symm ht),
        Function.update_comm ht]
    | false =>
      simp only [bindName, withVariable, Bool.false_eq_true, if_false, withSpecial_withCell,
        Function.update_comm ht]

end Commute

/-! ## Parameters that are bound later -/

/-- Nothing is evaluated, and neither the special variable nor its symbol are bound. -/
def Quiet (s : Symbol) (n : ℕ) : List (Step Symbol Form Value) → Prop
  | [] => True
  | .bind _ name _ :: steps => name ≠ .source s ∧ name ≠ .gensym n ∧ Quiet s n steps
  | .init .. :: _ => False
  | .check _ :: steps => Quiet s n steps

/-- The special variable is bound by one step, and the steps behind it are quiet. -/
def Movable (s : Symbol) (n : ℕ) : List (Step Symbol Form Value) → Prop
  | [] => False
  | .bind special name _ :: steps =>
    if name = .source s then special = true ∧ Quiet s n steps
    else name ≠ .gensym n ∧ Movable s n steps
  | .init special name _ :: steps =>
    if name = .source s then special = true ∧ Quiet s n steps
    else name ≠ .gensym n ∧ Movable s n steps
  | .check _ :: steps => Movable s n steps

def Step.replace (s : Symbol) (n : ℕ) : Step Symbol Form Value → Step Symbol Form Value
  | .bind special name value =>
    if name = .source s then .bind false (.gensym n) value else .bind special name value
  | .init special name form =>
    if name = .source s then .init false (.gensym n) form else .init special name form
  | .check problem => .check problem

theorem Quiet.map_replace {s : Symbol} {n : ℕ} {steps : List (Step Symbol Form Value)}
    (h : Quiet s n steps) : steps.map (Step.replace s n) = steps := by
  induction steps with
  | nil => rfl
  | cons step steps ih =>
    cases step with
    | bind special name value =>
      obtain ⟨hne, -, h⟩ := h
      simp [Step.replace, hne, ih h]
    | init special name form => exact h.elim
    | check problem => simp [Step.replace, ih h]

section Move

variable {s : Symbol} {n : ℕ}
  {k : Context Symbol Value → Computation Symbol Value World Exit α}

theorem withSpecial_run
    (hk : ∀ env syms v, k ⟨env, Function.update syms n v⟩ = k ⟨env, syms⟩)
    {steps : List (Step Symbol Form Value)} (h : Quiet s n steps) (v : Value)
    (ctx : Context Symbol Value) :
    withSpecial s v (run obj ev steps
        { ctx with env := Function.update ctx.env s (some .special) } k) =
      run obj ev steps { ctx with syms := Function.update ctx.syms n v } fun ctx =>
        bindName true (.source s) (ctx.syms n) ctx k := by
  induction steps generalizing ctx with
  | nil =>
    simp only [run, bindName, withVariable, if_true, Function.update_self]
    rw [hk]
  | cons step steps ih =>
    obtain ⟨special, name, w⟩ | ⟨special, name, form⟩ | ⟨_ | problem⟩ := step
    · obtain ⟨hs, hn, h⟩ := h
      simp only [run]
      rw [withSpecial_bindName s v hs]
      cases name with
      | source t =>
        simp only [bindName]
        congr 1
        funext env
        exact ih h ⟨env, ctx.syms⟩
      | gensym m =>
        have hm : m ≠ n := fun hm => hn (congrArg Name.gensym hm)
        have hmove := ih h ⟨ctx.env, Function.update ctx.syms m w⟩
        rw [Function.update_comm hm] at hmove
        exact hmove
    · exact h.elim
    · exact ih h ctx
    · exact withSpecial_exit s v _

variable (obj ev) in
/-- The parameter is bound to another symbol first, and rebound behind the other parameters. -/
theorem run_replace
    (hk : ∀ env syms v, k ⟨env, Function.update syms n v⟩ = k ⟨env, syms⟩)
    {steps : List (Step Symbol Form Value)} (h : Movable s n steps) (ctx : Context Symbol Value) :
    run obj ev (steps.map (Step.replace s n)) ctx
        (fun ctx => bindName true (.source s) (ctx.syms n) ctx k) =
      run obj ev steps ctx k := by
  induction steps generalizing ctx with
  | nil => exact h.elim
  | cons step steps ih =>
    obtain ⟨special, name, v⟩ | ⟨special, name, form⟩ | ⟨_ | problem⟩ := step
    · rw [Movable] at h
      split at h
      · next hname =>
        subst hname
        obtain ⟨rfl, hquiet⟩ := h
        simp only [List.map_cons, Step.replace, if_true, run, bindName, withVariable,
          hquiet.map_replace]
        exact (withSpecial_run hk hquiet v ctx).symm
      · next hname =>
        simp only [List.map_cons, Step.replace, if_neg hname, run]
        congr 1
        funext ctx
        exact ih h.2 ctx
    · rw [Movable] at h
      split at h
      · next hname =>
        subst hname
        obtain ⟨rfl, hquiet⟩ := h
        simp only [List.map_cons, Step.replace, if_true, run, bindName, withVariable,
          hquiet.map_replace]
        congr 1
        funext v
        exact (withSpecial_run hk hquiet v ctx).symm
      · next hname =>
        simp only [List.map_cons, Step.replace, if_neg hname, run]
        congr 1
        funext v
        congr 1
        funext ctx
        exact ih h.2 ctx
    · exact ih h ctx
    · rfl

end Move

/-! ## The result of a run -/

/-- The context and the state in the scope of a binding. -/
def enter (special : Bool) (name : Name Symbol) (value : Value) (ctx : Context Symbol Value)
    (st : State Symbol Value World) : Context Symbol Value × State Symbol Value World :=
  match name, special with
  | .source s, true =>
    ({ ctx with env := Function.update ctx.env s (some .special) },
      { st with dynamic := Function.update st.dynamic s (some value) })
  | .source s, false =>
    ({ ctx with env := Function.update ctx.env s (some (.cell st.next)) },
      { st with cells := Function.update st.cells st.next (some value), next := st.next + 1 })
  | .gensym n, _ => ({ ctx with syms := Function.update ctx.syms n value }, st)

theorem bindName_fst (special : Bool) (name : Name Symbol) (value : Value)
    (ctx : Context Symbol Value) (st : State Symbol Value World)
    (k : Context Symbol Value → Computation Symbol Value World Exit α) :
    (bindName special name value ctx k st).1 =
      (k (enter special name value ctx st).1 (enter special name value ctx st).2).1 := by
  cases name with
  | source s => cases special <;> rfl
  | gensym n => rfl

section Enter

variable {special : Bool} {name : Name Symbol} {value : Value} {ctx : Context Symbol Value}
  {st : State Symbol Value World} {s : Symbol} {n : ℕ}

@[simp] theorem enter_world : (enter special name value ctx st).2.world = st.world := by
  cases name with
  | source t => cases special <;> rfl
  | gensym m => rfl

theorem enter_dynamic (h : name ≠ .source s) :
    (enter special name value ctx st).2.dynamic s = st.dynamic s := by
  cases name with
  | source t =>
    have ht : s ≠ t := fun ht => h (congrArg Name.source ht.symm)
    cases special with
    | true => exact Function.update_of_ne ht _ _
    | false => rfl
  | gensym m => rfl

theorem enter_env (h : name ≠ .source s) :
    (enter special name value ctx st).1.env s = ctx.env s := by
  cases name with
  | source t =>
    have ht : s ≠ t := fun ht => h (congrArg Name.source ht.symm)
    cases special <;> exact Function.update_of_ne ht _ _
  | gensym m => rfl

theorem enter_syms (h : name ≠ .gensym n) :
    (enter special name value ctx st).1.syms n = ctx.syms n := by
  cases name with
  | source t => cases special <;> rfl
  | gensym m => exact Function.update_of_ne (fun hm => h (congrArg Name.gensym hm.symm)) _ _

@[simp] theorem enter_special_dynamic :
    (enter true (.source s) value ctx st).2.dynamic s = some value := Function.update_self ..

@[simp] theorem enter_special_env :
    (enter true (.source s) value ctx st).1.env s = some .special := Function.update_self ..

@[simp] theorem enter_lexical_env :
    (enter false (.source s) value ctx st).1.env s = some (.cell st.next) :=
  Function.update_self ..

@[simp] theorem enter_gensym_syms :
    (enter special (.gensym n) value ctx st).1.syms n = value := Function.update_self ..

end Enter

theorem run_fst {R : Except Exit α → Prop}
    {I : List (Step Symbol Form Value) → Context Symbol Value → State Symbol Value World → Prop}
    {k : Context Symbol Value → Computation Symbol Value World Exit α}
    (hbind : ∀ special name value steps ctx st, I (.bind special name value :: steps) ctx st →
      I steps (enter special name value ctx st).1 (enter special name value ctx st).2)
    (hinit : ∀ special name form steps ctx st, I (.init special name form :: steps) ctx st →
      match ev form ctx.env st with
      | (.ok value, st') =>
        I steps (enter special name value ctx st').1 (enter special name value ctx st').2
      | (.error e, _) => R (.error e))
    (hcheck : ∀ problem steps ctx st, I (.check problem :: steps) ctx st →
      match problem with
      | none => I steps ctx st
      | some problem => R (.error (obj.signal problem)))
    (hk : ∀ ctx st, I [] ctx st → R (k ctx st).1)
    {steps : List (Step Symbol Form Value)} {ctx : Context Symbol Value}
    {st : State Symbol Value World} (h : I steps ctx st) : R (run obj ev steps ctx k st).1 := by
  induction steps generalizing ctx st with
  | nil => exact hk ctx st h
  | cons step steps ih =>
    obtain ⟨special, name, value⟩ | ⟨special, name, form⟩ | ⟨_ | problem⟩ := step
    · rw [run, bindName_fst]
      exact ih (hbind _ _ _ _ _ _ h)
    · have hform := hinit _ _ _ _ _ _ h
      rw [run, andThen]
      split at hform
      · next value st' hev =>
        simp only [hev, bindName_fst]
        exact ih hform
      · next e st' hev =>
        simp only [hev]
        exact hform
    · exact ih (hcheck _ _ _ _ h)
    · exact hcheck _ _ _ _ h

end Xcl.RewriteLambda
