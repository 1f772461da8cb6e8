import Xcl.LetStar.Model

/-!
# Folding nested LET* forms

* **`letStar_fold_iff`**: the folded form has the meaning of the nest exactly when the innermost
  body declares no outer variable special.
-/

namespace Xcl.LetStar

open Binding (Env State Computation andThen withCell withSpecial withVariable bindStar
  bindStar_append bindStar_congr exists_withVariable_world
  withSpecial_world)

variable {Symbol : Type}

/-! ## Nests -/

theorem innerBody_ne (vars : List (Symbol × Form Symbol)) (body : List (Form Symbol))
    (vars' : List (Symbol × Form Symbol)) (body' : List (Form Symbol)) :
    innerBody (.letStar vars body) ≠ [.letStar vars' body'] := by
  generalize hform : Form.letStar vars body = form
  fun_induction innerBody form generalizing vars body with
  | case1 _ vars₁ body₁ ih => exact ih vars₁ body₁ rfl
  | case2 _ body₂ hne => exact hne vars' body'
  | case3 form _ hne => exact absurd hform.symm (hne vars body)

theorem maybeFoldLetStar_nest (vars : List (Symbol × Form Symbol)) (body : List (Form Symbol)) :
    maybeFoldLetStar (.letStar vars body) =
      .letStar (outerVars (.letStar vars body) ++ innerVars (.letStar vars body))
        (innerBody (.letStar vars body)) := by
  generalize hform : Form.letStar vars body = form
  fun_induction innerBody form generalizing vars body with
  | case1 _ vars₁ body₁ ih =>
    rw [maybeFoldLetStar, ih vars₁ body₁ rfl, outerVars, innerVars, List.append_assoc]
  | case2 _ body₂ hne =>
    rw [maybeFoldLetStar, outerVars, innerVars, List.nil_append]
    all_goals
      intros
      simp_all
  | case3 form _ hne => exact absurd hform.symm (hne vars body)

variable [DecidableEq Symbol] {Value World Exit : Type}
  {ev : Form Symbol → Env Symbol → Computation Symbol Value World Exit Value}
  {progn : List (Form Symbol) → Env Symbol → Computation Symbol Value World Exit Value}

theorem evalLetStar_nest (proclaimed : Symbol → Bool) (vars : List (Symbol × Form Symbol))
    (body : List (Form Symbol)) (env : Env Symbol) :
    evalLetStar proclaimed ev progn (.letStar vars body) env =
      bindStar ev proclaimed (outerVars (.letStar vars body)) env fun env =>
        bindStar ev (isSpecial proclaimed (innerBody (.letStar vars body)))
          (innerVars (.letStar vars body)) env fun env =>
            progn (bodyForms (innerBody (.letStar vars body)))
              (declareSpecials (innerBody (.letStar vars body)) env) := by
  generalize hform : Form.letStar vars body = form
  fun_induction innerBody form generalizing vars body env with
  | case1 vars₀ vars₁ body₁ ih =>
    have hspecial : isSpecial proclaimed [Form.letStar vars₁ body₁] = proclaimed := by
      funext name
      simp [isSpecial, declaredSpecials]
    have hdeclare : ∀ env, declareSpecials [Form.letStar vars₁ body₁] env = env := fun env => by
      funext name
      simp [declareSpecials, declaredSpecials]
    simp only [evalLetStar, outerVars, innerVars, bindStar_append, hspecial, hdeclare]
    congr 1
    funext env'
    exact ih vars₁ body₁ env' rfl
  | case2 _ body₂ hne =>
    rw [evalLetStar, outerVars, innerVars, bindStar]
    all_goals
      intros
      simp_all
  | case3 form _ hne => exact absurd hform.symm (hne vars body)

theorem evalLetStar_fold (proclaimed : Symbol → Bool) (vars : List (Symbol × Form Symbol))
    (body : List (Form Symbol)) (env : Env Symbol) :
    evalLetStar proclaimed ev progn (maybeFoldLetStar (.letStar vars body)) env =
      bindStar ev (isSpecial proclaimed (innerBody (.letStar vars body)))
        (outerVars (.letStar vars body)) env fun env =>
          bindStar ev (isSpecial proclaimed (innerBody (.letStar vars body)))
            (innerVars (.letStar vars body)) env fun env =>
              progn (bodyForms (innerBody (.letStar vars body)))
                (declareSpecials (innerBody (.letStar vars body)) env) := by
  rw [maybeFoldLetStar_nest, evalLetStar, bindStar_append]
  exact fun vars' body' h => innerBody_ne vars body vars' body' h

theorem evalLetStar_fold_eq {proclaimed : Symbol → Bool} {form : Form Symbol}
    (h : DeclaresOwn proclaimed form) (env : Env Symbol) :
    evalLetStar proclaimed ev progn (maybeFoldLetStar form) env =
      evalLetStar proclaimed ev progn form env := by
  cases form with
  | letStar vars body =>
    rw [evalLetStar_fold, evalLetStar_nest]
    refine bindStar_congr (fun var hvar => ?_) env _
    have hown := h var hvar
    rw [isSpecial, Bool.eq_iff_iff, Bool.or_eq_true, decide_eq_true_iff]
    exact ⟨fun hspecial => hspecial.elim id hown, Or.inl⟩
  | declare specials => rfl
  | other n => rfl

/-! ## Counting forms -/

section Counting

variable {Symbol : Type} (name : Symbol)

/-- Forms are counted until one of them refers to a dynamic binding of `name`. -/
def counting {α : Type} (_ : α) (env : Env Symbol) : Computation Symbol Unit ℕ Unit Unit := fun s =>
  if env name = some .special ∧ (s.dynamic name).isSome then (.error (), s)
  else (.ok (), { s with world := s.world + 1 })

theorem le_world_counting {α : Type} (form : α) (env : Env Symbol) (s : State Symbol Unit ℕ) :
    s.world ≤ (counting name form env s).2.world := by
  unfold counting
  split
  · exact le_rfl
  · exact Nat.le_succ _

theorem world_counting_of_special {α : Type} (form : α) {env : Env Symbol}
    {s : State Symbol Unit ℕ} (henv : env name = some .special) (hs : (s.dynamic name).isSome) :
    (counting name form env s).2.world = s.world := by
  rw [counting, if_pos ⟨henv, hs⟩]

theorem world_counting_of_none {α : Type} (form : α) (env : Env Symbol)
    {s : State Symbol Unit ℕ} (hs : s.dynamic name = none) :
    (counting name form env s).2.world = s.world + 1 := by
  rw [counting, if_neg]
  simp [hs]

variable [DecidableEq Symbol] {special : Symbol → Bool}
  {body : Env Symbol → Computation Symbol Unit ℕ Unit Unit}

theorem le_world_bindStar (hbody : ∀ env s, s.world ≤ (body env s).2.world)
    (vars : List (Symbol × Form Symbol)) (env : Env Symbol) (s : State Symbol Unit ℕ) :
    s.world ≤ (bindStar (counting name) special vars env body s).2.world := by
  induction vars generalizing env s with
  | nil => exact hbody env s
  | cons var vars ih =>
    obtain ⟨x, init⟩ := var
    simp only [bindStar, andThen, counting]
    split
    next hok =>
      split at hok
      · cases hok
      · obtain ⟨-, rfl⟩ := Prod.mk.inj hok
        obtain ⟨env', s', hs', heq⟩ := exists_withVariable_world (special x) x _ env
          (fun env => bindStar (counting name) special vars env body)
          { s with world := s.world + 1 }
        rw [heq]
        exact (Nat.le_succ _).trans (hs'.ge.trans (ih env' s'))
    next herr =>
      split at herr
      · obtain ⟨-, rfl⟩ := Prod.mk.inj herr
        exact le_rfl
      · cases herr

theorem world_bindStar_of_special
    (hbody : ∀ env s, env name = some .special → (s.dynamic name).isSome →
      (body env s).2.world = s.world)
    (vars : List (Symbol × Form Symbol)) {env : Env Symbol} {s : State Symbol Unit ℕ}
    (henv : env name = some .special) (hs : (s.dynamic name).isSome) :
    (bindStar (counting name) special vars env body s).2.world = s.world := by
  cases vars with
  | nil => exact hbody env s henv hs
  | cons var vars => simp [bindStar, andThen, counting, henv, hs]

theorem succ_le_world_bindStar (special : Symbol → Bool)
    (hbody : ∀ env s, s.world ≤ (body env s).2.world)
    (hfirst : ∀ env s, s.dynamic name = none → s.world + 1 ≤ (body env s).2.world)
    (vars : List (Symbol × Form Symbol)) (env : Env Symbol) (s : State Symbol Unit ℕ)
    (hs : s.dynamic name = none) :
    s.world + 1 ≤ (bindStar (counting name) special vars env body s).2.world := by
  cases vars with
  | nil => exact hfirst env s hs
  | cons var vars =>
    obtain ⟨x, init⟩ := var
    simp only [bindStar, andThen, counting, hs, Option.isSome_none, Bool.false_eq_true, and_false,
      if_false]
    obtain ⟨env', s', hs', heq⟩ := exists_withVariable_world (special x) x () env
      (fun env => bindStar (counting name) special vars env body) { s with world := s.world + 1 }
    rw [heq]
    exact hs'.ge.trans (le_world_bindStar name hbody vars env' s')

theorem exists_bindStar_of_notMem (special : Symbol → Bool) {vars : List (Symbol × Form Symbol)}
    (hvars : ∀ var ∈ vars, var.1 ≠ name) (env : Env Symbol) (s : State Symbol Unit ℕ)
    (henv : env name = none) (hs : s.dynamic name = none) :
    ∃ (env' : Env Symbol) (s' : State Symbol Unit ℕ), env' name = none ∧ s'.dynamic name = none ∧
      ∀ body : Env Symbol → Computation Symbol Unit ℕ Unit Unit,
        (bindStar (counting name) special vars env body s).2.world = (body env' s').2.world := by
  induction vars generalizing env s with
  | nil => exact ⟨env, s, henv, hs, fun body => rfl⟩
  | cons var vars ih =>
    obtain ⟨x, init⟩ := var
    have hx : name ≠ x := (hvars (x, init) List.mem_cons_self).symm
    have hrest : ∀ var ∈ vars, var.1 ≠ name := fun var h => hvars var (List.mem_cons_of_mem _ h)
    simp only [bindStar, andThen, counting, henv, reduceCtorEq, false_and, if_false, withVariable]
    cases special x with
    | true => exact ih hrest _ _ (by simp [hx, henv]) (by simp [hx, hs])
    | false => exact ih hrest _ _ (by simp [hx, henv]) hs

theorem bindStar_counting_ne {special special' : Symbol → Bool}
    {before after : List (Symbol × Form Symbol)} (init : Form Symbol)
    (hle : ∀ env s, s.world ≤ (body env s).2.world)
    (hfirst : ∀ env s, s.dynamic name = none → s.world + 1 ≤ (body env s).2.world)
    (hstop : ∀ env s, env name = some .special → (s.dynamic name).isSome →
      (body env s).2.world = s.world)
    (hbefore : ∀ var ∈ before, var.1 ≠ name)
    (hkinds : ∀ var ∈ before, special var.1 = special' var.1)
    (hspecial : special name = true) (hspecial' : special' name = false) :
    ∃ s,
      bindStar (counting name) special (before ++ (name, init) :: after) (fun _ => none) body s ≠
      bindStar (counting name) special' (before ++ (name, init) :: after) (fun _ => none) body
        s := by
  let s₀ : State Symbol Unit ℕ :=
    { dynamic := fun _ => none, cells := fun _ => none, next := 0, world := 0 }
  obtain ⟨env, s, henv, hs, hrun⟩ :=
    exists_bindStar_of_notMem name special' hbefore (fun _ => none) s₀ rfl rfl
  refine ⟨s₀, fun heq => ?_⟩
  have hworld := congrArg (fun result => result.2.world) heq
  simp only [bindStar_append, bindStar_congr hkinds, hrun] at hworld
  simp only [bindStar, andThen, counting, henv, reduceCtorEq, false_and, if_false, withVariable,
    hspecial, hspecial', if_true, Bool.false_eq_true] at hworld
  -- the state after the first initform
  set s₁ : State Symbol Unit ℕ := { s with world := s.world + 1 } with hs₁
  have hfolded : (bindStar (counting name) special after
      (Function.update env name (some .special)) body
      { s₁ with dynamic := Function.update s.dynamic name (some ()) }).2.world = s.world + 1 :=
    world_bindStar_of_special name hstop after (by simp) (by simp)
  have hnest := succ_le_world_bindStar name special' hle hfirst after
    (Function.update env name (some (.cell s.next)))
    { s₁ with cells := Function.update s.cells s.next (some ()), next := s.next + 1 } hs
  rw [withSpecial_world] at hworld
  exact absurd (hworld.symm.trans hfolded) (ne_of_gt hnest)

end Counting

/-! ## The fold -/

theorem exists_first_declared {proclaimed : Symbol → Bool} {form : Form Symbol}
    (h : ¬ DeclaresOwn proclaimed form) :
    ∃ (before after : List (Symbol × Form Symbol)) (name : Symbol) (init : Form Symbol),
      outerVars form = before ++ (name, init) :: after ∧
        name ∈ declaredSpecials (innerBody form) ∧ proclaimed name = false ∧
        ∀ var ∈ before, var.1 ∈ declaredSpecials (innerBody form) → proclaimed var.1 = true := by
  obtain ⟨⟨name, init⟩, hfind⟩ : ∃ var, (outerVars form).find? (fun var =>
      decide (var.1 ∈ declaredSpecials (innerBody form)) && !proclaimed var.1) = some var := by
    rw [← Option.isSome_iff_exists, List.find?_isSome]
    simpa [DeclaresOwn] using h
  obtain ⟨hbad, before, after, hsplit, hfirst⟩ := List.find?_eq_some_iff_append.mp hfind
  obtain ⟨hdeclared, hproclaimed⟩ :
      name ∈ declaredSpecials (innerBody form) ∧ proclaimed name = false := by simpa using hbad
  exact ⟨before, after, name, init, hsplit, hdeclared, hproclaimed,
    fun var hvar => by simpa [imp_iff_not_or] using hfirst var hvar⟩

theorem exists_fold_ne {proclaimed : Symbol → Bool} {form : Form Symbol}
    (h : ¬ DeclaresOwn proclaimed form) :
    ∃ (name : Symbol) (s : State Symbol Unit ℕ),
      evalLetStar proclaimed (counting name) (counting name) (maybeFoldLetStar form)
        (fun _ => none) s ≠
      evalLetStar proclaimed (counting name) (counting name) form (fun _ => none) s := by
  cases form with
  | declare specials => exact absurd (by simp [DeclaresOwn, outerVars]) h
  | other n => exact absurd (by simp [DeclaresOwn, outerVars]) h
  | letStar vars body =>
    obtain ⟨before, after, name, init, hsplit, hdeclared, hproclaimed, hbefore⟩ :=
      exists_first_declared h
    have hnames : ∀ var ∈ before, var.1 ≠ name := by
      intro var hvar heq
      have hspecial := hbefore var hvar (heq ▸ hdeclared)
      rw [heq, hproclaimed] at hspecial
      cases hspecial
    have hkinds : ∀ var ∈ before, isSpecial proclaimed (innerBody (.letStar vars body)) var.1 =
        proclaimed var.1 := by
      intro var hvar
      have hvar' := hbefore var hvar
      cases hp : proclaimed var.1 <;> simp_all [isSpecial]
    refine ⟨name, ?_⟩
    simp only [evalLetStar_fold, evalLetStar_nest, hsplit]
    refine bindStar_counting_ne name init (fun env s => ?_) (fun env s hs => ?_)
      (fun env s henv hs => ?_) hnames hkinds (by simp [isSpecial, hdeclared]) hproclaimed
    · exact le_world_bindStar name (fun env s => le_world_counting name _ _ s) _ env s
    · exact succ_le_world_bindStar name _ (fun env s => le_world_counting name _ _ s)
        (fun env s hs => (world_counting_of_none name _ _ hs).ge) _ env s hs
    · exact world_bindStar_of_special name (fun env s henv hs =>
        world_counting_of_special name _ (by simp [declareSpecials, henv]) hs) _ henv hs

/-- References to variables. -/
def evalReference : Form ℕ → Env ℕ → Computation ℕ ℕ Unit Unit ℕ
  | .other name, env => fun s =>
    let value := match env name with
      | some (.cell n) => s.cells n
      | _ => s.dynamic name
    (value.elim (.error ()) .ok, s)
  | _, _ => fun s => (.error (), s)

def evalBody : List (Form ℕ) → Env ℕ → Computation ℕ ℕ Unit Unit ℕ
  | [form], env => evalReference form env
  | _, _ => fun s => (.error (), s)

end Xcl.LetStar
