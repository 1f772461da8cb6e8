import Xcl.Setf.Model
import Mathlib.Tactic

/-!
# The order of evaluation in the expansions

* **`expand_right_iff`**: the expansion evaluates as prescribed, for all meanings of the forms, if
  and only if the place is in order for the macro.
-/

namespace Xcl.Setf

-- The equations of these functions are made once, before the lemmas that use them.
section
attribute [local simp] Core.store Interp.forms Op.expand Place.core eval evalForms letStar pop
  precompile1 prescribed push
end

/-! ## Subforms that are bound and subforms that are not -/

/-- The subforms that are bound to variables. -/
def Place.early (env : Bool) : Place → List ℕ
  | .var _ => []
  | .symbolMacro _ _ _ => []
  | .accessor _ _ args => args
  | .globalMacro expansion => expansion.early env
  | .localMacro expansion outside => if env then expansion.early env else outside.early env
  | .the _ place => place.early env

section
attribute [local simp] Place.early
end

/-- The subforms that the getter and the setter evaluate: those of a symbol macro. -/
def Place.late (env : Bool) : Place → List ℕ
  | .var _ => []
  | .symbolMacro _ _ expansion => expansion.core.args
  | .accessor _ _ _ => []
  | .globalMacro expansion => expansion.late env
  | .localMacro expansion outside => if env then expansion.late env else outside.late env
  | .the _ place => place.late env

section
attribute [local simp] Place.late
end

/-- The place that `get-setf-expansion` finds. -/
def Place.seen (env : Bool) : Place → Core
  | .var name => .var name
  | .symbolMacro _ _ expansion => expansion.core
  | .accessor name inverse args => .accessor name inverse args
  | .globalMacro expansion => expansion.seen env
  | .localMacro expansion outside => if env then expansion.seen env else outside.seen env
  | .the _ place => place.seen env

/-- The subforms that `SETF` evaluates before the value. -/
def Place.setfEarly : Place → List ℕ
  | .symbolMacro _ _ expansion => expansion.setfEarly
  | place => place.early true

section
attribute [local simp] Place.setfEarly
end

/-- The subforms that `SETF` evaluates after the value. -/
def Place.setfLate : Place → List ℕ
  | .symbolMacro _ _ expansion => expansion.setfLate
  | place => place.late true

section
attribute [local simp] Place.setfLate
end

theorem seen_true : ∀ place : Place, place.seen true = place.core
  | .var _ => rfl
  | .symbolMacro _ _ _ => rfl
  | .accessor _ _ _ => rfl
  | .globalMacro expansion => seen_true expansion
  | .localMacro expansion _ => seen_true expansion
  | .the _ place => seen_true place

theorem early_append_late (env : Bool) : ∀ place : Place,
    place.early env ++ place.late env = (place.seen env).args
  | .var _ => rfl
  | .symbolMacro _ _ _ => rfl
  | .accessor _ _ args => List.append_nil args
  | .globalMacro expansion => early_append_late env expansion
  | .localMacro expansion outside => by
    unfold Place.early Place.late Place.seen
    cases env with
    | true => exact early_append_late true expansion
    | false => exact early_append_late false outside
  | .the _ place => early_append_late env place

theorem early_or_late (env : Bool) : ∀ place : Place, place.early env = [] ∨ place.late env = []
  | .var _ => Or.inl rfl
  | .symbolMacro _ _ _ => Or.inl rfl
  | .accessor _ _ _ => Or.inr rfl
  | .globalMacro expansion => early_or_late env expansion
  | .localMacro expansion outside => by
    unfold Place.early Place.late
    cases env with
    | true => exact early_or_late true expansion
    | false => exact early_or_late false outside
  | .the _ place => early_or_late env place

theorem setfEarly_append_setfLate : ∀ place : Place,
    place.setfEarly ++ place.setfLate = place.core.args
  | .symbolMacro _ _ expansion => setfEarly_append_setfLate expansion
  | .var _ => rfl
  | .accessor _ _ args => List.append_nil args
  | .globalMacro expansion => by
    rw [Place.core, ← seen_true, ← early_append_late]
    rfl
  | .localMacro expansion _ => by
    rw [Place.core, ← seen_true, ← early_append_late]
    rfl
  | .the _ place => by
    rw [Place.core, ← seen_true, ← early_append_late]
    rfl

theorem setfEarly_or_setfLate : ∀ place : Place, place.setfEarly = [] ∨ place.setfLate = []
  | .symbolMacro _ _ expansion => setfEarly_or_setfLate expansion
  | .var _ => Or.inl rfl
  | .accessor _ _ _ => Or.inr rfl
  | .globalMacro expansion => early_or_late true expansion
  | .localMacro expansion outside => early_or_late true (.localMacro expansion outside)
  | .the _ place => early_or_late true place

theorem setf_of_args_nil {place : Place} (h : place.core.args = []) :
    place.setfEarly = [] ∧ place.setfLate = [] := by
  rw [← List.append_eq_nil_iff, setfEarly_append_setfLate, h]

section Eval

variable {σ V : Type} {I : Interp σ V} {n : ℕ}

/-! ## Forms and bindings -/

theorem forms_append (xs ys : List ℕ) (s : σ) : I.forms (xs ++ ys) s =
    ((I.forms xs s).1 ++ (I.forms ys (I.forms xs s).2).1, (I.forms ys (I.forms xs s).2).2) := by
  induction xs generalizing s with
  | nil => rfl
  | cons x xs ih =>
    rw [List.cons_append, Interp.forms, ih]
    rfl

theorem length_forms (xs : List ℕ) (s : σ) : (I.forms xs s).1.length = xs.length := by
  induction xs generalizing s with
  | nil => rfl
  | cons x xs ih =>
    rw [Interp.forms, List.length_cons, List.length_cons, ih]

theorem evalForms_append (xs ys : List Form) (st : (ℕ → V) × σ) : evalForms I (xs ++ ys) st =
    ((evalForms I xs st).1 ++ (evalForms I ys (evalForms I xs st).2).1,
      (evalForms I ys (evalForms I xs st).2).2) := by
  induction xs generalizing st with
  | nil => rfl
  | cons x xs ih =>
    rw [List.cons_append, evalForms, ih]
    rfl

theorem evalForms_form (xs : List ℕ) (ρ : ℕ → V) (s : σ) :
    evalForms I (xs.map .form) (ρ, s) = ((I.forms xs s).1, (ρ, (I.forms xs s).2)) := by
  induction xs generalizing s with
  | nil => rfl
  | cons x xs ih =>
    rw [List.map_cons, evalForms, eval, ih]
    rfl

theorem evalForms_gensym (gs : List ℕ) (st : (ℕ → V) × σ) :
    evalForms I (gs.map .gensym) st = (gs.map st.1, st) := by
  induction gs with
  | nil => rfl
  | cons g gs ih =>
    rw [List.map_cons, evalForms, eval, ih]
    rfl

/-- The variables after the bindings of a `LET*`. -/
def bindAll (ρ : ℕ → V) : List ℕ → List V → ℕ → V
  | g :: gs, v :: vs => bindAll (Function.update ρ g v) gs vs
  | _, _ => ρ

section
attribute [local simp] bindAll
end

theorem bindAll_of_notMem {gs : List ℕ} {vs : List V} {ρ : ℕ → V} {g : ℕ} (h : g ∉ gs) :
    bindAll ρ gs vs g = ρ g := by
  induction gs generalizing vs ρ with
  | nil => rfl
  | cons g' gs ih =>
    cases vs with
    | nil => rfl
    | cons v vs =>
      rw [List.mem_cons, not_or] at h
      rw [bindAll, ih h.2, Function.update_of_ne h.1]

theorem map_bindAll {gs : List ℕ} {vs : List V} {ρ : ℕ → V} (hnodup : gs.Nodup)
    (hlength : gs.length = vs.length) : gs.map (bindAll ρ gs vs) = vs := by
  induction gs generalizing vs ρ with
  | nil =>
    cases vs with
    | nil => rfl
    | cons v vs => cases hlength
  | cons g gs ih =>
    cases vs with
    | nil => cases hlength
    | cons v vs =>
      rw [List.nodup_cons] at hnodup
      rw [List.map_cons, bindAll, ih hnodup.2 (Nat.succ.inj hlength), bindAll_of_notMem hnodup.1,
        Function.update_self]

theorem eval_letStar_zip {gs : List ℕ} {xs : List ℕ} (hlength : gs.length = xs.length)
    (rest : List (ℕ × Form)) (body : Form) (ρ : ℕ → V) (s : σ) :
    eval I (letStar (gs.zip (xs.map .form) ++ rest) body) (ρ, s) =
      eval I (letStar rest body) (bindAll ρ gs (I.forms xs s).1, (I.forms xs s).2) := by
  induction gs generalizing xs ρ s with
  | nil =>
    cases xs with
    | nil => rfl
    | cons x xs => cases hlength
  | cons g gs ih =>
    cases xs with
    | nil => cases hlength
    | cons x xs =>
      rw [List.map_cons, List.zip_cons_cons, List.cons_append, letStar, eval, eval,
        ih (Nat.succ.inj hlength)]
      rfl

/-- The value of a form, which does not depend on variables from `n` on. -/
def Denotes (I : Interp σ V) (n : ℕ) (ρ : ℕ → V) (form : Form) (f : σ → V × σ) : Prop :=
  ∀ ρ', (∀ g < n, ρ' g = ρ g) → ∀ s, eval I form (ρ', s) = ((f s).1, (ρ', (f s).2))

theorem denotes_form (n : ℕ) (ρ : ℕ → V) (i : ℕ) : Denotes I n ρ (.form i) (I.form i) := by
  intro ρ' _ s
  rw [eval]

theorem denotes_gensym {ρ : ℕ → V} {g : ℕ} (h : g < n) :
    Denotes I n ρ (.gensym g) fun s => (ρ g, s) := by
  intro ρ' hρ' s
  rw [eval]
  show (ρ' g, (ρ', s)) = (ρ g, (ρ', s))
  rw [hρ' g h]

/-! ## Expansions -/

structure Meets (I : Interp σ V) (n : ℕ) (e : Expansion) (early late : List ℕ) (core : Core) :
    Prop where
  store : e.store = n
  vals : e.vals = early.map .form
  length : e.vars.length = early.length
  nodup : e.vars.Nodup
  above : ∀ g ∈ e.vars, n < g
  getter : ∀ ρ s, eval I e.getter (ρ, s) =
    let a := I.forms late s
    let r := core.read I (e.vars.map ρ ++ a.1) a.2
    (r.1, (ρ, r.2))
  setter : ∀ ρ s, result I e.setter (ρ, s) =
    let a := I.forms late s
    core.store I (e.vars.map ρ ++ a.1) (ρ n) a.2

variable {e : Expansion} {early late : List ℕ} {core : Core}

/-- The `LET*` of an expansion: the subforms are bound to the variables, then the value. -/
theorem Meets.eval_letStar (h : Meets I n e early late core) (ρ : ℕ → V) (s : σ) :
    ∃ ρ', e.vars.map ρ' = (I.forms early s).1 ∧ (∀ g ≤ n, ρ' g = ρ g) ∧
      ∀ value body, eval I (letStar (e.bindings ++ [(e.store, value)]) body) (ρ, s) =
        let r := eval I value (ρ', (I.forms early s).2)
        eval I body (Function.update r.2.1 n r.1, r.2.2) := by
  refine ⟨bindAll ρ e.vars (I.forms early s).1, ?_, fun g hg => ?_, fun value body => ?_⟩
  · exact map_bindAll h.nodup (by rw [h.length, length_forms])
  · exact bindAll_of_notMem fun hmem => absurd (h.above g hmem) (by omega)
  · rw [Expansion.bindings, h.vals, eval_letStar_zip h.length, h.store]
    rfl

theorem Meets.setter_update (h : Meets I n e early late core) {ρ : ℕ → V} {xs : List V}
    (hvars : e.vars.map ρ = xs) (v : V) (s : σ) :
    result I e.setter (Function.update ρ n v, s) =
      let a := I.forms late s
      core.store I (xs ++ a.1) v a.2 := by
  have hmap : e.vars.map (Function.update ρ n v) = xs := by
    rw [← hvars]
    refine List.map_congr_left fun g hg => ?_
    exact Function.update_of_ne (Nat.ne_of_gt (h.above g hg)) v ρ
  rw [h.setter, hmap, Function.update_self]

theorem Meets.result_setForm (h : Meets I n e early late core) {ρ : ℕ → V} {value : Form}
    {f : σ → V × σ} (hvalue : Denotes I n ρ value f) (s : σ) :
    result I (e.setForm value) (ρ, s) =
      let a := I.forms early s
      let v := f a.2
      let b := I.forms late v.2
      core.store I (a.1 ++ b.1) v.1 b.2 := by
  obtain ⟨ρ', hvars, hbelow, heval⟩ := h.eval_letStar ρ s
  have hv := hvalue ρ' (fun g hg => hbelow g (Nat.le_of_lt hg)) (I.forms early s).2
  have hset : result I (e.setForm value) (ρ, s) = result I e.setter
      (Function.update ρ' n (f (I.forms early s).2).1, (f (I.forms early s).2).2) := by
    unfold result Expansion.setForm
    rw [heval, hv]
  rw [hset, h.setter_update hvars]

theorem Meets.the (h : Meets I n e early late core) (type : String) :
    Meets I n (e.the type) early late core where
  store := h.store
  vals := h.vals
  length := h.length
  nodup := h.nodup
  above := h.above
  getter := h.getter
  setter := by
    intro ρ s
    have hsame : result I (e.the type).setter (ρ, s) = result I e.setter (ρ, s) := by
      unfold result Expansion.the
      rw [eval, eval, eval]
      rw [Function.update_eq_self]
    rw [hsame, h.setter]
    rfl

theorem meets_getSetfMethodInverse (n : ℕ) (name : String) (inverse : Option String)
    (args : List ℕ) : Meets I n (getSetfMethodInverse n name inverse args) args []
      (.accessor name inverse args) where
  store := rfl
  vals := rfl
  length := by
    unfold getSetfMethodInverse
    rw [List.length_reverse, List.length_range']
  nodup := List.nodup_reverse.mpr List.nodup_range'
  above := by
    intro g hg
    have hmem := List.mem_range'_1.mp (List.mem_reverse.mp hg)
    omega
  getter := by
    intro ρ s
    unfold getSetfMethodInverse
    rw [eval, evalForms_gensym]
    simp [Core.read, Interp.forms]
  setter := by
    intro ρ s
    unfold getSetfMethodInverse result
    cases inverse with
    | some inverse =>
      simp only
      rw [eval, evalForms_append, evalForms_gensym]
      simp [Core.store, Interp.forms, evalForms, eval]
    | none =>
      simp only
      rw [eval, evalForms, eval, evalForms_gensym]
      simp [Core.store, Interp.forms]

theorem eval_precompile1 (ρ : ℕ → V) (s : σ) : ∀ place : Place,
    eval I (precompile1 place) (ρ, s) =
      let a := I.forms place.core.args s
      let r := place.core.read I a.1 a.2
      (r.1, (ρ, r.2))
  | .var _ => by
    rw [precompile1, eval]
    rfl
  | .symbolMacro _ _ expansion => eval_precompile1 ρ s expansion
  | .accessor name inverse args => by
    rw [precompile1, eval, evalForms_form]
    rfl
  | .globalMacro expansion => eval_precompile1 ρ s expansion
  | .localMacro expansion _ => eval_precompile1 ρ s expansion
  | .the _ place => by
    rw [precompile1, eval]
    exact eval_precompile1 ρ s place

mutual

theorem meets_getSetfExpansion (n : ℕ) (env : Bool) : ∀ place : Place,
    Meets I n (getSetfExpansion n env place) (place.early env) (place.late env) (place.seen env)
  | .var name => by
    unfold getSetfExpansion
    refine ⟨rfl, rfl, rfl, List.nodup_nil, fun g hg => (by cases hg), fun ρ s => ?_, fun ρ s => ?_⟩
    · rw [eval]
      rfl
    · unfold result
      rw [eval, eval]
      rfl
  | .symbolMacro _ _ expansion => by
    unfold getSetfExpansion
    refine ⟨rfl, rfl, rfl, List.nodup_nil, fun g hg => (by cases hg), fun ρ s => ?_, fun ρ s => ?_⟩
    · exact eval_precompile1 ρ s expansion
    · rw [result_setf (n + 1) expansion (denotes_gensym (Nat.lt_succ_self n))]
      show _ = (let a := I.forms expansion.core.args s
        expansion.core.store I ([] ++ a.1) (ρ n) a.2)
      rw [← setfEarly_append_setfLate, forms_append]
      rfl
  | .accessor name inverse args => by
    unfold getSetfExpansion
    exact meets_getSetfMethodInverse n name inverse args
  | .globalMacro expansion => by
    unfold getSetfExpansion
    exact meets_getSetfExpansion n env expansion
  | .localMacro expansion outside => by
    unfold getSetfExpansion Place.early Place.late Place.seen
    by_cases henv : env = true
    · rw [if_pos henv, if_pos henv, if_pos henv, if_pos henv]
      exact meets_getSetfExpansion n env expansion
    · rw [if_neg henv, if_neg henv, if_neg henv, if_neg henv]
      exact meets_getSetfExpansion n env outside
  | .the type place => by
    unfold getSetfExpansion
    exact (meets_getSetfExpansion n env place).the type

/-- `SETF` evaluates some subforms, then the value, then the other subforms. -/
theorem result_setf (n : ℕ) : ∀ (place : Place) {value : Form} {ρ : ℕ → V} {f : σ → V × σ}
    (_ : Denotes I n ρ value f) (s : σ), result I (setf n place value) (ρ, s) =
      let a := I.forms place.setfEarly s
      let v := f a.2
      let b := I.forms place.setfLate v.2
      place.core.store I (a.1 ++ b.1) v.1 b.2
  | .var name, _, ρ, _, hvalue, s => by
    unfold setf result
    rw [eval, hvalue ρ (fun _ _ => rfl) s]
    rfl
  | .symbolMacro _ _ expansion, _, _, _, hvalue, s => by
    unfold setf
    exact result_setf n expansion hvalue s
  | .accessor name (some inverse) args, _, ρ, _, hvalue, s => by
    unfold setf result
    rw [eval, evalForms_append, evalForms_form, evalForms, hvalue ρ (fun _ _ => rfl)]
    simp [evalForms, Core.store, Place.setfEarly, Place.setfLate, Place.early, Place.late,
      Interp.forms, Place.core]
  | .accessor name none args, _, _, _, hvalue, s => by
    unfold setf
    exact (meets_getSetfMethodInverse n name none args).result_setForm hvalue s
  | .globalMacro expansion, _, _, _, hvalue, s => by
    unfold setf
    rw [(meets_getSetfExpansion n true expansion).result_setForm hvalue, seen_true]
    rfl
  | .localMacro expansion _, _, _, _, hvalue, s => by
    unfold setf
    rw [(meets_getSetfExpansion n true expansion).result_setForm hvalue, seen_true]
    rfl
  | .the type place, _, _, _, hvalue, s => by
    unfold setf
    rw [((meets_getSetfExpansion n true place).the type).result_setForm hvalue, seen_true]
    rfl

end

/-! ## The macros -/

theorem denotes_primitive_precompile1 {ρ : ℕ → V} {form : Form} {f : σ → V × σ}
    (h : Denotes I n ρ form f) (op : Primitive) (place : Place) :
    Denotes I n ρ (.primitive op [precompile1 place, form]) fun s =>
      let a := I.forms place.core.args s
      let r := place.core.read I a.1 a.2
      let d := f r.2
      (I.primitive op [r.1, d.1], d.2) := by
  intro ρ' hρ' s
  rw [eval, evalForms, eval_precompile1, evalForms, h ρ' hρ']
  rfl

theorem eval_delta (delta : Delta) (ρ : ℕ → V) (s : σ) :
    eval I delta.toForm (ρ, s) = ((I.delta delta s).1, (ρ, (I.delta delta s).2)) := by
  cases delta with
  | constant i =>
    rw [Delta.toForm, eval]
    rfl
  | form i =>
    rw [Delta.toForm, eval]
    rfl

theorem denotes_delta (n : ℕ) (ρ : ℕ → V) (delta : Delta) :
    Denotes I n ρ delta.toForm (I.delta delta) := fun ρ' _ s => eval_delta delta ρ' s

theorem Meets.result_push (h : Meets I 1 e early late core) (item : ℕ) (ρ : ℕ → V) (s : σ) :
    result I (letStar ((0, .form item) :: e.bindings ++
        [(e.store, .primitive .cons [.gensym 0, e.getter])]) e.setter) (ρ, s) =
      let i := I.form item s
      let a := I.forms early i.2
      let b := I.forms late a.2
      let r := core.read I (a.1 ++ b.1) b.2
      let c := I.forms late r.2
      core.store I (a.1 ++ c.1) (I.primitive .cons [i.1, r.1]) c.2 := by
  obtain ⟨ρ', hvars, hbelow, heval⟩ :=
    h.eval_letStar (Function.update ρ 0 (I.form item s).1) (I.form item s).2
  have hitem : ρ' 0 = (I.form item s).1 := by
    rw [hbelow 0 (Nat.zero_le 1), Function.update_self]
  have hset : result I (letStar ((0, .form item) :: e.bindings ++
        [(e.store, .primitive .cons [.gensym 0, e.getter])]) e.setter) (ρ, s) =
      let a := I.forms early (I.form item s).2
      let b := I.forms late a.2
      let r := core.read I (a.1 ++ b.1) b.2
      result I e.setter (Function.update ρ' 1 (I.primitive .cons [(I.form item s).1, r.1]),
        r.2) := by
    unfold result
    rw [List.cons_append, letStar, eval, eval, heval, eval, evalForms, eval, evalForms, h.getter,
      hvars, evalForms]
    rw [← hitem]
  rw [hset]
  exact h.setter_update hvars _ _

theorem Meets.result_pop (h : Meets I n e early late core) (ρ : ℕ → V) (s : σ) :
    result I (letStar (e.bindings ++ [(e.store, e.getter)])
        (.prog1 (.primitive .car [.gensym e.store])
          (.progn (.setqGensym e.store (.primitive .cdr [.gensym e.store])) e.setter))) (ρ, s) =
      let a := I.forms early s
      let b := I.forms late a.2
      let r := core.read I (a.1 ++ b.1) b.2
      let c := I.forms late r.2
      let w := core.store I (a.1 ++ c.1) (I.primitive .cdr [r.1]) c.2
      (I.primitive .car [r.1], w.2) := by
  obtain ⟨ρ', hvars, -, heval⟩ := h.eval_letStar ρ s
  have hset := fun v s' => h.setter_update hvars v s'
  unfold result at hset ⊢
  rw [heval, h.getter, hvars, h.store]
  simp only [eval, evalForms, Function.update_self, Function.update_idem]
  rw [Prod.mk.injEq]
  exact ⟨rfl, congrArg Prod.snd (hset _ _)⟩

theorem Meets.result_modify (h : Meets I n e early late core) (op : Primitive) (delta : Delta)
    (ρ : ℕ → V) (s : σ) :
    result I (letStar (e.bindings ++ [(e.store, .primitive op [e.getter, delta.toForm])])
        e.setter) (ρ, s) =
      let a := I.forms early s
      let b := I.forms late a.2
      let r := core.read I (a.1 ++ b.1) b.2
      let d := I.delta delta r.2
      let c := I.forms late d.2
      core.store I (a.1 ++ c.1) (I.primitive op [r.1, d.1]) c.2 := by
  obtain ⟨ρ', hvars, -, heval⟩ := h.eval_letStar ρ s
  have hset := fun v s' => h.setter_update hvars v s'
  unfold result at hset ⊢
  rw [heval, eval, evalForms, h.getter, hvars, evalForms, eval_delta, evalForms]
  exact hset _ _

theorem denotes_cons_precompile1 (n : ℕ) (ρ : ℕ → V) (item : ℕ) (place : Place) :
    Denotes I n ρ (.primitive .cons [.form item, precompile1 place]) fun s =>
      let i := I.form item s
      let a := I.forms place.core.args i.2
      let r := place.core.read I a.1 a.2
      (I.primitive .cons [i.1, r.1], r.2) := by
  intro ρ' _ s
  rw [eval, evalForms, eval, evalForms, eval_precompile1]
  rfl

theorem denotes_unary_precompile1 (n : ℕ) (ρ : ℕ → V) (op : Primitive) (place : Place) :
    Denotes I n ρ (.primitive op [precompile1 place]) fun s =>
      let a := I.forms place.core.args s
      let r := place.core.read I a.1 a.2
      (I.primitive op [r.1], r.2) := by
  intro ρ' _ s
  rw [eval, evalForms, eval_precompile1]
  rfl

theorem result_pop_symbolMacro (name : String) (expansion : Place) (ρ : ℕ → V) (s : σ) :
    result I (pop (.symbolMacro false name expansion)) (ρ, s) =
      let core := expansion.core
      let a := I.forms core.args s
      let r := core.read I a.1 a.2
      let b := I.forms expansion.setfEarly r.2
      let c := I.forms core.args b.2
      let q := core.read I c.1 c.2
      let d := I.forms expansion.setfLate q.2
      let w := core.store I (b.1 ++ d.1) (I.primitive .cdr [q.1]) d.2
      (I.primitive .car [r.1], w.2) := by
  have hread := denotes_unary_precompile1 (I := I) 0 ρ .car expansion ρ (fun _ _ => rfl) s
  have hset := fun s' => result_setf (I := I) 0 expansion
    (denotes_unary_precompile1 0 ρ .cdr expansion) s'
  unfold result at hset ⊢
  unfold pop
  rw [eval, hread, Prod.mk.injEq]
  exact ⟨rfl, congrArg Prod.snd (hset _)⟩

theorem result_modifySymbol (op : Primitive) (delta : Delta) (place : Place) (ρ : ℕ → V) (s : σ) :
    result I (modifySymbol op delta place) (ρ, s) =
      let d := I.delta delta s
      let core := place.core
      let a := I.forms place.setfEarly d.2
      let b := I.forms core.args a.2
      let r := core.read I b.1 b.2
      let c := I.forms place.setfLate r.2
      core.store I (a.1 ++ c.1) (I.primitive op [r.1, d.1]) c.2 := by
  cases delta with
  | constant i =>
    exact result_setf 0 place
      (denotes_primitive_precompile1 (denotes_delta 0 ρ (.constant i)) op place) s
  | form i =>
    have hset := result_setf (I := I) 1 place
      (denotes_primitive_precompile1 (denotes_gensym (ρ := Function.update ρ 0 (I.form i s).1)
        Nat.zero_lt_one) op place) (I.form i s).2
    rw [Function.update_self] at hset
    unfold modifySymbol
    unfold result at hset ⊢
    rw [eval, eval]
    exact hset

theorem result_modify_the (op : Primitive) (delta : Delta) (type : String) (place : Place)
    (ρ : ℕ → V) (s : σ) :
    result I (modify op delta (.the type place)) (ρ, s) =
      let core := place.core
      let a := I.forms core.args s
      let r := core.read I a.1 a.2
      let d := I.delta delta r.2
      let b := I.forms place.setfEarly d.2
      let c := I.forms place.setfLate b.2
      core.store I (b.1 ++ c.1) (I.primitive op [r.1, d.1]) c.2 := by
  have hset := fun v s' => result_setf (I := I) 1 place
    (denotes_gensym (ρ := Function.update ρ 0 v) Nat.zero_lt_one) s'
  simp only [Function.update_self] at hset
  unfold modify
  unfold result at hset ⊢
  rw [eval, eval, eval, evalForms, eval, eval_precompile1, evalForms, eval_delta, evalForms]
  exact hset _ _

end Eval

/-! ## Places in order -/

def Core.IsVariable : Core → Prop
  | .var _ => True
  | .accessor _ _ _ => False

def Delta.IsConstant : Delta → Prop
  | .constant _ => True
  | .form _ => False

/-- The places for which `INCF` and `DECF` keep the order. -/
def ModifyInOrder (delta : Delta) : Place → Prop
  | .var _ => True
  | .symbolMacro _ _ expansion => expansion.core.args = []
  | .the _ place => place.core.args = [] ∧ delta.IsConstant
  | place => place.late true = [] ∧ delta.IsConstant

def InOrder : Op → Place → Prop
  | .setf _, place => place.setfLate = []
  | .push _, place => place.late false = [] ∧ place.seen false = place.core
  | .pop, .symbolMacro false _ expansion => expansion.core.IsVariable
  | .pop, place => place.late true = []
  | .incf delta, place => ModifyInOrder delta place
  | .decf delta, place => ModifyInOrder delta place

/-- The expansion evaluates as prescribed, whatever the forms in it do. -/
def Right (op : Op) (place : Place) : Prop :=
  ∀ (σ V : Type) (I : Interp σ V) (ρ : ℕ → V) (s : σ),
    result I (op.expand place) (ρ, s) = prescribed I op place.core s

/-! ## A record of an evaluation -/

inductive Event
  | form (i : ℕ)
  | call (fn : Function) (args : List ℕ)
  | set (name : String) (value : ℕ)

/-- The state is the list of what happened, the last event first. The value of a form is the number
of events before it, and that of `(+ x y)` is that of `x`. -/
def recorder : Interp (List Event) ℕ where
  constant _ := 0
  form i s := (s.length, .form i :: s)
  get _ s := s.length
  set name v s := .set name v :: s
  primitive _ xs := xs.headD 0
  call fn xs s := (s.length, .call fn xs :: s)

theorem forms_recorder (xs : List ℕ) (s : List Event) :
    (recorder.forms xs s).2 = (xs.map .form).reverse ++ s := by
  induction xs generalizing s with
  | nil => rfl
  | cons x xs ih =>
    rw [Interp.forms, ih, List.map_cons, List.reverse_cons, List.append_assoc]
    rfl

theorem length_forms_recorder (xs : List ℕ) (s : List Event) :
    (recorder.forms xs s).2.length = xs.length + s.length := by
  rw [forms_recorder, List.length_append, List.length_reverse, List.length_map]

theorem length_form_recorder (i : ℕ) (s : List Event) :
    (recorder.form i s).2.length = s.length + 1 := rfl

/-- The number of events of a delta. -/
def Delta.count : Delta → ℕ
  | .constant _ => 0
  | .form _ => 1

theorem length_delta_recorder (delta : Delta) (s : List Event) :
    (recorder.delta delta s).2.length = s.length + delta.count := by
  cases delta with
  | constant i => rfl
  | form i => rfl

def Core.reads : Core → List ℕ → List Event
  | .var _, _ => []
  | .accessor name _ _, xs => [.call (.accessor name) xs]

theorem read_recorder (core : Core) (xs : List ℕ) (s : List Event) :
    core.read recorder xs s = (s.length, core.reads xs ++ s) := by
  cases core with
  | var name => rfl
  | accessor name inverse args => rfl

def Core.readCount : Core → ℕ
  | .var _ => 0
  | .accessor _ _ _ => 1

theorem length_reads (core : Core) (xs : List ℕ) :
    (core.reads xs).length = core.readCount := by
  cases core with
  | var name => rfl
  | accessor name inverse args => rfl

/-- The event of setting a place. -/
def Core.sets : Core → List ℕ → ℕ → Event
  | .var name, _, v => .set name v
  | .accessor _ (some inverse) _, xs, v => .call (.inverse inverse) (xs ++ [v])
  | .accessor name none _, xs, v => .call (.setfFunction name) (v :: xs)

theorem store_recorder (core : Core) (xs : List ℕ) (v : ℕ) (s : List Event) :
    (core.store recorder xs v s).2 = core.sets xs v :: s := by
  cases core with
  | var name => rfl
  | accessor name inverse args =>
    cases inverse with
    | none => rfl
    | some inverse => rfl

theorem sets_value {core : Core} {xs ys : List ℕ} {v v' : ℕ}
    (h : core.sets xs v = core.sets ys v') : v = v' := by
  cases core with
  | var name => exact (Event.set.inj h).2
  | accessor name inverse args =>
    cases inverse with
    | none => exact (List.cons.inj (Event.call.inj h).2).1
    | some inverse =>
      exact List.singleton_inj.mp (List.append_inj_right' (Event.call.inj h).2 rfl)

theorem sets_of_args {core : Core} (h : core.args ≠ []) (xs : List ℕ) (v : ℕ) :
    ∃ fn ys, core.sets xs v = .call fn ys := by
  cases core with
  | var name => exact absurd rfl h
  | accessor name inverse args =>
    cases inverse with
    | none => exact ⟨_, _, rfl⟩
    | some inverse => exact ⟨_, _, rfl⟩

theorem reads_of_sets {core : Core} {xs ys : List ℕ} {v : ℕ} {fn : Function}
    (h : core.sets xs v = .call fn ys) : ∃ fn', ∀ zs, core.reads zs = [.call fn' zs] := by
  cases core with
  | var name => cases h
  | accessor name inverse args => exact ⟨.accessor name, fun _ => rfl⟩

theorem forms_recorder_ne_call {xs ys : List ℕ} (h : xs ≠ []) {fn : Function}
    {s t : List Event} : (recorder.forms xs s).2 ≠ .call fn ys :: t := by
  intro heq
  rw [forms_recorder] at heq
  obtain hnil | ⟨zs, x, hxs⟩ := List.eq_nil_or_concat xs
  · exact h hnil
  · rw [hxs, List.concat_eq_append, List.map_append, List.reverse_append] at heq
    cases (List.cons.inj heq).1

theorem core_of_events {core core' : Core} {xs ys : List ℕ} {v v' : ℕ} {s : List Event}
    (h : core.sets xs v :: (core.reads xs ++ ((core.args.map .form).reverse ++ s)) =
      core'.sets ys v' :: (core'.reads ys ++ ((core'.args.map .form).reverse ++ s))) :
    core = core' := by
  obtain ⟨hsets, h⟩ := List.cons.inj h
  cases core with
  | var name =>
    cases core' with
    | var name' => rw [(Event.set.inj hsets).1]
    | accessor name' inverse' args' => cases inverse' <;> cases hsets
  | accessor name inverse args =>
    cases core' with
    | var name' => cases inverse <;> cases hsets
    | accessor name' inverse' args' =>
      obtain ⟨hreads, h⟩ := List.cons.inj h
      have hname : name = name' := Function.accessor.inj (Event.call.inj hreads).1
      have hargs : args = args' := by
        have hmap := List.reverse_inj.mp (List.append_cancel_right h)
        exact List.map_injective_iff.mpr (fun _ _ heq => Event.form.inj heq) hmap
      have hinverse : inverse = inverse' := by
        cases inverse with
        | none =>
          cases inverse' with
          | none => rfl
          | some i' => cases (Event.call.inj hsets).1
        | some i =>
          cases inverse' with
          | none => cases (Event.call.inj hsets).1
          | some i' => rw [Function.inverse.inj (Event.call.inj hsets).1]
      rw [hname, hargs, hinverse]

/-! ## The macros keep the order on places in order, and only there -/

theorem right_setf_iff (value : ℕ) (place : Place) :
    Right (.setf value) place ↔ place.setfLate = [] := by
  have hresult := fun (σ V : Type) (I : Interp σ V) ρ s =>
    result_setf (I := I) 0 place (denotes_form 0 ρ value) s
  constructor
  · intro h
    by_contra hlate
    have hearly : place.setfEarly = [] := (setfEarly_or_setfLate place).resolve_right hlate
    have hargs : place.setfLate = place.core.args := by
      rw [← setfEarly_append_setfLate, hearly, List.nil_append]
    have heq := congrArg Prod.snd ((hresult _ _ recorder 0 []).symm.trans (h _ _ recorder 0 []))
    simp only [prescribed, store_recorder] at heq
    -- the value is evaluated before the subforms, not after them
    have hvalue := sets_value (List.cons.inj heq).1
    rw [hearly, show recorder.form value (recorder.forms place.core.args []).2 =
      ((recorder.forms place.core.args []).2.length, _) from rfl, length_forms_recorder,
      ← hargs] at hvalue
    exact hlate (List.length_eq_zero_iff.mp hvalue.symm)
  · intro hlate σ V I ρ s
    have hargs : place.setfEarly = place.core.args := by
      rw [← setfEarly_append_setfLate, hlate, List.append_nil]
    rw [Op.expand, hresult, hlate, hargs]
    simp only [Interp.forms, List.append_nil]
    rfl

theorem early_eq_args {env : Bool} {place : Place} (h : place.late env = []) :
    place.early env = (place.seen env).args := by
  rw [← early_append_late, h, List.append_nil]

theorem right_push_iff_of_expansion {item : ℕ} {place : Place}
    (hpush : push (.form item) place = letStar ((0, .form item) ::
      (getSetfExpansion 1 false place).bindings ++ [((getSetfExpansion 1 false place).store,
        .primitive .cons [.gensym 0, (getSetfExpansion 1 false place).getter])])
      (getSetfExpansion 1 false place).setter) :
    Right (.push item) place ↔ place.late false = [] ∧ place.seen false = place.core := by
  have hresult := fun (σ V : Type) (I : Interp σ V) ρ s =>
    (meets_getSetfExpansion (I := I) 1 false place).result_push item ρ s
  constructor
  · intro h
    have heq := h _ _ recorder 0 []
    rw [Op.expand, hpush, hresult] at heq
    replace heq := congrArg Prod.snd heq
    simp only [prescribed, store_recorder, read_recorder] at heq
    have hlate : place.late false = [] := by
      by_contra hlate
      have hargs : (place.seen false).args ≠ [] := by
        rw [← early_append_late]
        exact List.append_ne_nil_of_right_ne_nil _ hlate
      obtain ⟨hsets, hrest⟩ := List.cons.inj heq
      obtain ⟨fn, ys, hcall⟩ := sets_of_args hargs _ _
      obtain ⟨fn', hreads⟩ := reads_of_sets (hsets.symm.trans hcall)
      -- the subforms are evaluated again between reading and setting the place
      rw [hreads] at hrest
      exact forms_recorder_ne_call hlate hrest
    have hearly := early_eq_args hlate
    rw [hlate, hearly] at heq
    simp only [Interp.forms, List.append_nil, forms_recorder] at heq
    exact ⟨hlate, core_of_events heq⟩
  · rintro ⟨hlate, hseen⟩ σ V I ρ s
    rw [Op.expand, hpush, hresult, hlate, early_eq_args hlate, hseen]
    simp only [Interp.forms, List.append_nil]
    rfl

theorem right_push_iff (item : ℕ) (place : Place) :
    Right (.push item) place ↔ InOrder (.push item) place := by
  cases place with
  | var name =>
    refine ⟨fun _ => ⟨rfl, rfl⟩, fun _ σ V I ρ s => ?_⟩
    unfold result
    rw [Op.expand, push, eval, eval, evalForms, eval, evalForms, eval, evalForms]
    rfl
  | symbolMacro global name expansion =>
    cases global with
    | true => exact right_push_iff_of_expansion rfl
    | false =>
      have hresult := fun (σ V : Type) (I : Interp σ V) ρ s =>
        result_setf (I := I) 0 expansion (denotes_cons_precompile1 0 ρ item expansion) s
      have hlength := congrArg List.length (setfEarly_append_setfLate expansion)
      rw [List.length_append] at hlength
      constructor
      · intro h
        have heq := h _ _ recorder 0 []
        rw [Op.expand, push, hresult] at heq
        replace heq := congrArg (fun r => r.2.length) heq
        simp only [prescribed, store_recorder, read_recorder, List.length_cons, List.length_append,
          length_forms_recorder, length_form_recorder, length_reads, Place.core] at heq
        have hargs : expansion.core.args = [] := List.length_eq_zero_iff.mp (by omega)
        exact ⟨hargs, rfl⟩
      · intro h σ V I ρ s
        have hargs : expansion.core.args = [] := h.1
        obtain ⟨hearly, hlate⟩ := setf_of_args_nil hargs
        rw [Op.expand, push, hresult, hearly, hlate]
        simp only [prescribed, Place.core, hargs, Interp.forms, List.append_nil]
  | accessor name inverse args => exact right_push_iff_of_expansion rfl
  | globalMacro expansion => exact right_push_iff_of_expansion rfl
  | localMacro expansion outside => exact right_push_iff_of_expansion rfl
  | the type place => exact right_push_iff_of_expansion rfl

theorem right_pop_iff_of_expansion {place : Place}
    (hpop : pop place = letStar ((getSetfExpansion 0 true place).bindings ++
        [((getSetfExpansion 0 true place).store, (getSetfExpansion 0 true place).getter)])
      (.prog1 (.primitive .car [.gensym (getSetfExpansion 0 true place).store])
        (.progn (.setqGensym (getSetfExpansion 0 true place).store
          (.primitive .cdr [.gensym (getSetfExpansion 0 true place).store]))
          (getSetfExpansion 0 true place).setter))) :
    Right .pop place ↔ place.late true = [] := by
  have hresult := fun (σ V : Type) (I : Interp σ V) ρ s =>
    (meets_getSetfExpansion (I := I) 0 true place).result_pop ρ s
  have hlength := congrArg List.length (early_append_late true place)
  rw [List.length_append, seen_true] at hlength
  constructor
  · intro h
    have heq := h _ _ recorder 0 []
    rw [Op.expand, hpop, hresult] at heq
    replace heq := congrArg (fun r => r.2.length) heq
    simp only [prescribed, store_recorder, read_recorder, List.length_cons, List.length_append,
      length_forms_recorder, length_reads, seen_true] at heq
    exact List.length_eq_zero_iff.mp (by omega)
  · intro hlate σ V I ρ s
    rw [Op.expand, hpop, hresult, hlate, early_eq_args hlate, seen_true]
    simp only [Interp.forms, List.append_nil]
    rfl

theorem right_pop_iff (place : Place) : Right .pop place ↔ InOrder .pop place := by
  cases place with
  | var name =>
    refine ⟨fun _ => rfl, fun _ σ V I ρ s => ?_⟩
    unfold result
    rw [Op.expand, pop, eval, eval, evalForms, eval, evalForms, eval, eval, evalForms, eval,
      evalForms]
    rfl
  | symbolMacro global name expansion =>
    cases global with
    | true => exact right_pop_iff_of_expansion rfl
    | false =>
      constructor
      · intro h
        have heq := h _ _ recorder 0 []
        rw [Op.expand, result_pop_symbolMacro] at heq
        replace heq := congrArg (fun r => r.2.length) heq
        simp only [prescribed, store_recorder, read_recorder, List.length_cons, List.length_append,
          length_forms_recorder, length_reads, Place.core] at heq
        have hcount : expansion.core.readCount = 0 := by omega
        show expansion.core.IsVariable
        cases hcore : expansion.core with
        | var name => trivial
        | accessor name inverse args =>
          rw [hcore] at hcount
          cases hcount
      · intro hvar σ V I ρ s
        replace hvar : expansion.core.IsVariable := hvar
        rw [Op.expand, result_pop_symbolMacro, Place.core]
        cases hcore : expansion.core with
        | var name =>
          have hargs : expansion.core.args = [] := by rw [hcore, Core.args]
          obtain ⟨hearly, hlate⟩ := setf_of_args_nil hargs
          rw [hearly, hlate]
          rfl
        | accessor name inverse args =>
          rw [hcore] at hvar
          exact hvar.elim
  | accessor name inverse args => exact right_pop_iff_of_expansion rfl
  | globalMacro expansion => exact right_pop_iff_of_expansion rfl
  | localMacro expansion outside => exact right_pop_iff_of_expansion rfl
  | the type place => exact right_pop_iff_of_expansion rfl

/-- `INCF` or `DECF` evaluates as prescribed. -/
def ModifyRight (op : Primitive) (delta : Delta) (place : Place) : Prop :=
  ∀ (σ V : Type) (I : Interp σ V) (ρ : ℕ → V) (s : σ),
    result I (modify op delta place) (ρ, s) = prescribedModify I op delta place.core s

theorem modifyRight_symbol_iff {op : Primitive} {delta : Delta} {place : Place}
    (hmodify : modify op delta place = modifySymbol op delta place) :
    ModifyRight op delta place ↔ place.core.args = [] := by
  have hlength := congrArg List.length (setfEarly_append_setfLate place)
  rw [List.length_append] at hlength
  constructor
  · intro h
    have heq := h _ _ recorder 0 []
    rw [hmodify, result_modifySymbol] at heq
    replace heq := congrArg (fun r => r.2.length) heq
    simp only [prescribedModify, store_recorder, read_recorder, List.length_cons,
      List.length_append, length_forms_recorder, length_delta_recorder, length_reads] at heq
    exact List.length_eq_zero_iff.mp (by omega)
  · intro hargs σ V I ρ s
    obtain ⟨hearly, hlate⟩ := setf_of_args_nil hargs
    rw [hmodify, result_modifySymbol, hearly, hlate]
    simp only [prescribedModify, hargs, Interp.forms, List.append_nil]

theorem isConstant_of_sets {op : Primitive} {delta : Delta} {core : Core} {xs ys : List ℕ}
    {d d' k k' : ℕ} (hk : k' = k + delta.count)
    (h : core.sets xs (recorder.primitive op [k, d]) =
      core.sets ys (recorder.primitive op [k', d'])) : delta.IsConstant := by
  cases delta with
  | constant i => trivial
  | form i =>
    have hvalue : k = k' := sets_value h
    rw [Delta.count] at hk
    omega

theorem delta_of_isConstant {σ V : Type} {I : Interp σ V} {delta : Delta} (h : delta.IsConstant)
    (s : σ) : (I.delta delta s).2 = s := by
  cases delta with
  | constant i => rfl
  | form i => exact h.elim

theorem delta_value_of_isConstant {σ V : Type} {I : Interp σ V} {delta : Delta}
    (h : delta.IsConstant) (s t : σ) : (I.delta delta s).1 = (I.delta delta t).1 := by
  cases delta with
  | constant i => rfl
  | form i => exact h.elim

theorem modifyRight_the_iff (op : Primitive) (delta : Delta) (type : String) (place : Place) :
    ModifyRight op delta (.the type place) ↔ place.core.args = [] ∧ delta.IsConstant := by
  have hlength := congrArg List.length (setfEarly_append_setfLate place)
  rw [List.length_append] at hlength
  constructor
  · intro h
    have heq := congrArg Prod.snd (h _ _ recorder 0 [])
    rw [result_modify_the] at heq
    simp only [prescribedModify, store_recorder, read_recorder, Place.core] at heq
    have hargs : place.core.args = [] := by
      replace heq := congrArg List.length heq
      simp only [List.length_cons, List.length_append, length_forms_recorder,
        length_delta_recorder, length_reads] at heq
      exact List.length_eq_zero_iff.mp (by omega)
    refine ⟨hargs, isConstant_of_sets ?_ (List.cons.inj heq).1⟩
    rw [length_delta_recorder]
  · rintro ⟨hargs, hconstant⟩ σ V I ρ s
    obtain ⟨hearly, hlate⟩ := setf_of_args_nil hargs
    rw [result_modify_the, hearly, hlate]
    simp only [prescribedModify, Place.core, hargs, Interp.forms, List.append_nil,
      delta_of_isConstant hconstant]
    rw [delta_value_of_isConstant hconstant]

theorem modifyRight_complex_iff {op : Primitive} {delta : Delta} {place : Place}
    (hmodify : modify op delta place = modifyComplex op delta place) :
    ModifyRight op delta place ↔ place.late true = [] ∧ delta.IsConstant := by
  have hresult := fun (σ V : Type) (I : Interp σ V) ρ s =>
    (meets_getSetfExpansion (I := I) 0 true place).result_modify op delta ρ s
  have hlength := congrArg List.length (early_append_late true place)
  rw [List.length_append, seen_true] at hlength
  constructor
  · intro h
    have heq := h _ _ recorder 0 []
    rw [hmodify, modifyComplex, hresult] at heq
    replace heq := congrArg Prod.snd heq
    simp only [prescribedModify, store_recorder, read_recorder, seen_true] at heq
    have hlate : place.late true = [] := by
      have hlengths := congrArg List.length heq
      simp only [List.length_cons, List.length_append, length_forms_recorder,
        length_delta_recorder, length_reads] at hlengths
      exact List.length_eq_zero_iff.mp (by omega)
    refine ⟨hlate, isConstant_of_sets ?_ (List.cons.inj heq).1⟩
    rw [hlate, early_eq_args hlate, seen_true, length_delta_recorder]
    rfl
  · rintro ⟨hlate, hconstant⟩ σ V I ρ s
    rw [hmodify, modifyComplex, hresult, hlate, early_eq_args hlate, seen_true]
    simp only [prescribedModify, Interp.forms, List.append_nil, delta_of_isConstant hconstant]
    rw [delta_value_of_isConstant hconstant]

theorem modifyRight_iff (op : Primitive) (delta : Delta) (place : Place) :
    ModifyRight op delta place ↔ ModifyInOrder delta place := by
  cases place with
  | var name => exact (modifyRight_symbol_iff rfl).trans ⟨fun _ => trivial, fun _ => rfl⟩
  | symbolMacro global name expansion => exact modifyRight_symbol_iff rfl
  | accessor name inverse args => exact modifyRight_complex_iff rfl
  | globalMacro expansion => exact modifyRight_complex_iff rfl
  | localMacro expansion outside => exact modifyRight_complex_iff rfl
  | the type place => exact modifyRight_the_iff op delta type place

end Xcl.Setf
