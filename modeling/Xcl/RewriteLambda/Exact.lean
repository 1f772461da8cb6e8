import Xcl.RewriteLambda.Preserved

/-!
# When rewritten lambda expressions do the same

* `boundNames`, `inits`: what the steps of a call bind and evaluate.
-/

namespace Xcl.RewriteLambda

open Binding

-- The equations of these functions are made once, before the lemmas that use them.
section
attribute [local simp] hasUnrecognized lookupKey rewriteSpecials
end

variable {Symbol Form Value Exit : Type}

/-! ## What steps bind and evaluate -/

def Step.name : Step Symbol Form Value → Option (Name Symbol)
  | .bind _ name _ => some name
  | .init _ name _ => some name
  | .check _ => none

section
attribute [local simp] Step.name
end

def Step.isInit : Step Symbol Form Value → Bool
  | .init .. => true
  | _ => false

def boundNames (steps : List (Step Symbol Form Value)) : List (Name Symbol) :=
  steps.filterMap Step.name

def inits (steps : List (Step Symbol Form Value)) : ℕ := steps.countP Step.isInit

/-- The names that the steps of these parameters bind. -/
def parameterNames (ps : List (Name Symbol × Option (Initform Symbol Form))) :
    List (Name Symbol) :=
  ps.flatMap fun p => p.1 :: (suppliedP p.2).map .source

/-- The kind of the variable is right, the check is in `C`. -/
def Step.Fits (special : Symbol → Bool) (C : Option Problem → Prop) :
    Step Symbol Form Value → Prop
  | .bind kind name _ => kind = name.isSpecial special
  | .init kind name _ => kind = name.isSpecial special
  | .check problem => C problem

section
attribute [local simp] Step.Fits
end

@[simp] theorem inits_bind (kind : Bool) (name : Name Symbol) (value : Value)
    (steps : List (Step Symbol Form Value)) :
    inits (.bind kind name value :: steps) = inits steps :=
  List.countP_cons_of_neg nofun

@[simp] theorem inits_init (kind : Bool) (name : Name Symbol) (form : Form)
    (steps : List (Step Symbol Form Value)) :
    inits (.init kind name form :: steps) = inits steps + 1 := List.countP_cons_of_pos rfl

@[simp] theorem inits_check (problem : Option Problem) (steps : List (Step Symbol Form Value)) :
    inits (.check problem :: steps) = inits steps := List.countP_cons_of_neg nofun

section Supplied

variable {special : Symbol → Bool} (names : List Symbol) (value : Value)

@[simp] theorem boundNames_supplied :
    boundNames (names.map fun s => (.bind (special s) (.source s) value : Step Symbol Form Value)) =
      names.map .source := by
  simp [boundNames, Step.name, List.filterMap_map, Function.comp_def]

@[simp] theorem inits_supplied :
    inits (names.map fun s => (.bind (special s) (.source s) value : Step Symbol Form Value)) =
      0 := by
  simp [inits, Step.isInit, List.countP_map, Function.comp_def]

theorem boundNames_append (steps steps' : List (Step Symbol Form Value)) :
    boundNames (steps ++ steps') = boundNames steps ++ boundNames steps' :=
  List.filterMap_append

theorem inits_append (steps steps' : List (Step Symbol Form Value)) :
    inits (steps ++ steps') = inits steps + inits steps' := List.countP_append

variable (obj : Objects Symbol Value Exit) (name : Name Symbol)
  (init : Option (Initform Symbol Form))

theorem boundNames_suppliedSteps :
    boundNames (suppliedSteps obj special name init value) =
      name :: (suppliedP init).map .source :=
  congrArg (name :: ·) (boundNames_supplied (suppliedP init) obj.t)

theorem boundNames_missingSteps :
    boundNames (missingSteps obj special name init) = name :: (suppliedP init).map .source := by
  cases init with
  | none => rfl
  | some init => exact congrArg (name :: ·) (boundNames_supplied (suppliedP (some init)) obj.nil)

end Supplied

namespace Shape

variable {obj : Objects Symbol Value Exit} {special : Symbol → Bool} {minimal : Bool}
  {C : Option Problem → Prop} {ps : List (Name Symbol × Option (Initform Symbol Form))}
  {steps : List (Step Symbol Form Value)}

theorem boundNames_eq (h : Shape obj special minimal C ps steps) :
    boundNames steps = parameterNames ps := by
  induction h with
  | nil => rfl
  | check problem _ h ih => exact ih
  | supplied name init value _ h ih =>
    rw [boundNames_append, boundNames_suppliedSteps, ih]
    rfl
  | missing name init h ih =>
    rw [boundNames_append, boundNames_missingSteps, ih]
    rfl

theorem inits_eq (h : Shape obj special true C ps steps) :
    inits steps = ps.countP fun p => p.2.isSome := by
  induction h with
  | nil => rfl
  | check problem _ h ih => rwa [inits_check]
  | supplied name init value hinit h ih =>
    obtain rfl := hinit rfl
    simpa [suppliedSteps, suppliedP] using ih
  | missing name init h ih =>
    rw [inits_append, ih]
    cases init <;> simp [missingSteps, Nat.add_comm]

theorem fits (h : Shape obj special minimal C ps steps) :
    ∀ step ∈ steps, step.Fits special C := by
  have hsupplied (names : List Symbol) (value : Value) : ∀ step ∈
      names.map fun s => (.bind (special s) (.source s) value : Step Symbol Form Value),
        step.Fits special C := by
    simp [Step.Fits, Name.isSpecial]
  induction h with
  | nil => simp
  | check problem hproblem h ih => exact List.forall_mem_cons.2 ⟨hproblem, ih⟩
  | supplied name init value _ h ih =>
    exact List.forall_mem_append.2 ⟨List.forall_mem_cons.2 ⟨rfl, hsupplied _ _⟩, ih⟩
  | missing name init h ih =>
    refine List.forall_mem_append.2 ⟨List.forall_mem_cons.2 ⟨?_, hsupplied _ _⟩, ih⟩
    cases init <;> rfl

end Shape

/-! ## Initforms behind special parameters -/

variable [DecidableEq Symbol]

/-- The variable is bound, and special, before some initform is evaluated. -/
def BoundBefore (s : Symbol) : List (Step Symbol Form Value) → Prop
  | [] => False
  | .bind special name _ :: steps =>
    if name = .source s then special = true ∧ 0 < inits steps else BoundBefore s steps
  | .init special name _ :: steps =>
    if name = .source s then special = true ∧ 0 < inits steps else BoundBefore s steps
  | .check _ :: steps => BoundBefore s steps

section
attribute [local simp] BoundBefore
end

/-- There is an initform behind the parameter. -/
def InitAfter (s : Symbol) : List (Name Symbol × Option (Initform Symbol Form)) → Prop
  | [] => False
  | p :: ps => if p.1 = .source s then ∃ q ∈ ps, q.2.isSome else InitAfter s ps

section
attribute [local simp] InitAfter
end

section Later

variable {obj : Objects Symbol Value Exit} {special : Symbol → Bool}
  {C : Option Problem → Prop} {ps : List (Name Symbol × Option (Initform Symbol Form))}
  {steps : List (Step Symbol Form Value)} {s : Symbol}

theorem InitAfter.mem (h : InitAfter s ps) : .source s ∈ ps.map Prod.fst := by
  induction ps with
  | nil => exact h.elim
  | cons p ps ih =>
    rw [InitAfter] at h
    split at h
    · next heq => simp [heq]
    · exact List.mem_cons_of_mem _ (ih h)

theorem exists_initAfter
    (h : ¬ ps.Pairwise fun p q => p.1.isSpecial special = true → q.2.isNone)
    (hnodup : (ps.map Prod.fst).Nodup) : ∃ s, special s = true ∧ InitAfter s ps := by
  induction ps with
  | nil => exact absurd List.Pairwise.nil h
  | cons p ps ih =>
    obtain ⟨hp, hnodup⟩ := List.nodup_cons.1 hnodup
    by_cases hps : ps.Pairwise fun p q => p.1.isSpecial special = true → q.2.isNone
    · obtain ⟨q, hq, hspecial, hsome⟩ :
          ∃ q ∈ ps, p.1.isSpecial special = true ∧ q.2.isSome := by
        by_contra hnone
        refine h (List.pairwise_cons.2 ⟨fun q hq hspecial => ?_, hps⟩)
        by_contra hsome
        exact hnone ⟨q, hq, hspecial, by simpa [Option.isSome_iff_ne_none] using hsome⟩
      cases hname : p.1 with
      | source s =>
        rw [hname] at hspecial
        exact ⟨s, hspecial, by rw [InitAfter, if_pos hname]; exact ⟨q, hq, hsome⟩⟩
      | gensym n =>
        rw [hname] at hspecial
        cases hspecial
    · obtain ⟨s, hspecial, hafter⟩ := ih hps hnodup
      have hne : p.1 ≠ .source s := fun heq => hp (heq ▸ hafter.mem)
      exact ⟨s, hspecial, by rwa [InitAfter, if_neg hne]⟩

theorem BoundBefore.supplied {names : List Symbol} (hs : s ∉ names) (h : BoundBefore s steps)
    (value : Value) :
    BoundBefore s (names.map (fun t => .bind (special t) (.source t) value) ++ steps) := by
  induction names with
  | nil => exact h
  | cons t names ih =>
    obtain ⟨hne, hs⟩ := List.ne_and_not_mem_of_not_mem_cons hs
    have hname : Name.source t ≠ .source s := fun ht => hne (Name.source.inj ht).symm
    rw [List.map_cons, List.cons_append, BoundBefore, if_neg hname]
    exact ih hs

theorem Shape.boundBefore (h : Shape obj special true C ps steps) (hspecial : special s = true)
    (hafter : InitAfter s ps) (hsupplied : ∀ p ∈ ps, s ∉ suppliedP p.2) :
    BoundBefore s steps := by
  have hpos {ps : List (Name Symbol × Option (Initform Symbol Form))}
      {steps : List (Step Symbol Form Value)} (h : Shape obj special true C ps steps)
      (hafter : ∃ q ∈ ps, q.2.isSome) : 0 < inits steps := by
    rw [h.inits_eq, List.countP_pos_iff]
    exact hafter
  induction h with
  | nil => exact hafter
  | check problem _ h ih => exact ih hafter hsupplied
  | supplied name init value hinit h ih =>
    obtain rfl := hinit rfl
    rw [InitAfter] at hafter
    obtain ⟨-, hsupplied⟩ := List.forall_mem_cons.1 hsupplied
    rw [suppliedSteps, List.cons_append, BoundBefore]
    split at hafter
    · next heq =>
      rw [if_pos heq]
      exact ⟨by rw [show name = .source s from heq]; exact hspecial, hpos h hafter⟩
    · next hne =>
      rw [if_neg hne]
      exact ih hafter hsupplied
  | @missing ps steps name init h ih =>
    rw [InitAfter] at hafter
    obtain ⟨hsup, hsupplied⟩ := List.forall_mem_cons.1 hsupplied
    have hrest : if name = .source s then name.isSpecial special = true ∧ 0 < inits
          ((suppliedP init).map (fun t => .bind (special t) (.source t) obj.nil) ++ steps)
        else BoundBefore s
          ((suppliedP init).map (fun t => .bind (special t) (.source t) obj.nil) ++ steps) := by
      split at hafter
      · next heq =>
        rw [if_pos heq, inits_append, inits_supplied, Nat.zero_add]
        exact ⟨by rw [show name = .source s from heq]; exact hspecial, hpos h hafter⟩
      · next hne =>
        rw [if_neg hne]
        exact .supplied hsup (ih hafter hsupplied) obj.nil
    cases init <;> exact hrest

end Later

section Counting

/-- The initforms are counted. One that sees a value of the variable exits with the count. -/
def counting (s : Symbol) (_ : Form) (_ : Env Symbol) :
    Computation Symbol Unit ℕ (Option ℕ) Unit := fun st =>
  if (st.dynamic s).isSome then (.error (some st.world), st)
  else (.ok (), { st with world := st.world + 1 })

def countingObjects : Objects Symbol Unit (Option ℕ) where
  nil := ()
  t := ()
  list _ := ()
  key _ := ()
  allowOtherKeys := ()
  signal _ := none

variable {α : Type} {s : Symbol} {steps : List (Step Symbol Form Unit)}
  {ctx : Context Symbol Unit} {st : State Symbol Unit ℕ} {N : ℕ}
  {k : Context Symbol Unit → Computation Symbol Unit ℕ (Option ℕ) α}

theorem enter_isSome {World : Type} {special : Bool} {name : Name Symbol} {value : Value}
    {ctx : Context Symbol Value} {st : State Symbol Value World}
    (h : (st.dynamic s).isSome ∨ (special = true ∧ name = .source s)) :
    ((enter special name value ctx st).2.dynamic s).isSome := by
  by_cases hname : name = .source s
  · subst hname
    cases special with
    | true => simp
    | false =>
      obtain h | ⟨h, -⟩ := h
      · exact h
      · cases h
  · rw [enter_dynamic hname]
    exact h.resolve_right fun h => hname h.2

theorem exits_before (hclean : ∀ problem, .check problem ∈ steps → problem = none)
    (hbound : BoundBefore s steps) (hnone : st.dynamic s = none)
    (hN : st.world + inits steps ≤ N) :
    ∃ m < N, (run countingObjects (counting s) steps ctx k st).1 = .error (some m) := by
  refine run_fst (R := fun r => ∃ m < N, r = .error (some m)) (I := fun steps _ st =>
    (∀ problem, .check problem ∈ steps → problem = none) ∧ st.world + inits steps ≤ N ∧
      (st.dynamic s = none ∧ BoundBefore s steps ∨ (st.dynamic s).isSome ∧ 0 < inits steps))
    ?_ ?_ ?_ ?_ ⟨hclean, hN, .inl ⟨hnone, hbound⟩⟩
  · rintro special name value steps ctx st ⟨hclean, hN, h⟩
    refine ⟨fun p hp => hclean p (List.mem_cons_of_mem _ hp), by simpa using hN, ?_⟩
    obtain ⟨hnone, h⟩ | ⟨hsome, h⟩ := h
    · rw [BoundBefore] at h
      split at h
      · next heq => exact .inr ⟨enter_isSome (.inr ⟨h.1, heq⟩), h.2⟩
      · next hne => exact .inl ⟨by rwa [enter_dynamic hne], h⟩
    · exact .inr ⟨enter_isSome (.inl hsome), by simpa using h⟩
  · rintro special name form steps ctx st ⟨hclean, hN, h⟩
    rw [inits_init] at hN
    obtain ⟨hnone, h⟩ | ⟨hsome, h⟩ := h
    · simp only [counting, hnone, Option.isSome_none, Bool.false_eq_true, if_false]
      refine ⟨fun p hp => hclean p (List.mem_cons_of_mem _ hp), ?_, ?_⟩
      · simp only [enter_world]
        omega
      · rw [BoundBefore] at h
        split at h
        · next heq => exact .inr ⟨enter_isSome (.inr ⟨h.1, heq⟩), h.2⟩
        · next hne => exact .inl ⟨by rw [enter_dynamic hne]; exact hnone, h⟩
    · simp only [counting, hsome, if_true]
      exact ⟨st.world, by omega, rfl⟩
  · rintro problem steps ctx st ⟨hclean, hN, h⟩
    obtain rfl := hclean problem List.mem_cons_self
    exact ⟨fun p hp => hclean p (List.mem_cons_of_mem _ hp), by simpa using hN,
      h.imp id fun h => ⟨h.1, by simpa using h.2⟩⟩
  · rintro ctx st ⟨-, -, ⟨-, h⟩ | ⟨-, h⟩⟩
    · exact h.elim
    · simp [inits] at h

/-- An exit with a count of at least `N`, if any. -/
def LateExit (N : ℕ) (r : Except (Option ℕ) α) : Prop := ∀ m, r = .error (some m) → N ≤ m

theorem not_lateExit (hclean : ∀ problem, .check problem ∈ steps → problem = none)
    (hbound : BoundBefore s steps) (hnone : st.dynamic s = none)
    (hN : st.world + inits steps ≤ N) :
    ¬ LateExit N (run countingObjects (counting s) steps ctx k st).1 := by
  obtain ⟨m, hm, hexit⟩ := exits_before hclean hbound hnone hN
  exact fun hlate => Nat.not_le_of_lt hm (hlate m hexit)

theorem exits_late (hbound : .source s ∉ boundNames steps) (hnone : st.dynamic s = none)
    (hN : N ≤ st.world + inits steps)
    (hk : ∀ ctx st, N ≤ st.world → LateExit N (k ctx st).1) :
    LateExit N (run countingObjects (counting s) steps ctx k st).1 := by
  refine run_fst (I := fun steps _ st => .source s ∉ boundNames steps ∧ st.dynamic s = none ∧
    N ≤ st.world + inits steps) ?_ ?_ ?_ ?_ ⟨hbound, hnone, hN⟩
  · rintro special name value steps ctx st ⟨hbound, hnone, hN⟩
    obtain ⟨hne, hbound⟩ := List.ne_and_not_mem_of_not_mem_cons hbound
    exact ⟨hbound, by rwa [enter_dynamic (Ne.symm hne)], by simpa using hN⟩
  · rintro special name form steps ctx st ⟨hbound, hnone, hN⟩
    obtain ⟨hne, hbound⟩ := List.ne_and_not_mem_of_not_mem_cons hbound
    rw [inits_init] at hN
    simp only [counting, hnone, Option.isSome_none, Bool.false_eq_true, if_false]
    refine ⟨hbound, by rw [enter_dynamic (Ne.symm hne)]; exact hnone, ?_⟩
    simp only [enter_world]
    omega
  · rintro (_ | problem) steps ctx st ⟨hbound, hnone, hN⟩
    · exact ⟨hbound, hnone, by simpa using hN⟩
    · rintro m ⟨⟩
  · rintro ctx st ⟨-, -, hN⟩
    exact hk ctx st (by simpa [inits] using hN)

theorem Body.exits_late {proclaimed : Symbol → Bool} (b : Body Symbol Form)
    (ctx : Context Symbol Unit) (st : State Symbol Unit ℕ) (h : N ≤ st.world) :
    LateExit N (b.run countingObjects (counting s) proclaimed
      (fun _ st => (.ok (), st) : Env Symbol → Computation Symbol Unit ℕ (Option ℕ) Unit)
      ctx st).1 := by
  induction b generalizing ctx st with
  | forms => rintro m ⟨⟩
  | letStar vars decls b ih =>
    refine run_fst (I := fun _ _ st => N ≤ st.world) ?_ ?_ ?_ (fun ctx st h => ih _ st h) h
    · intro special name value steps ctx st h
      rwa [enter_world]
    · intro special name form steps ctx st h
      by_cases hsome : (st.dynamic s).isSome
      · simp only [counting, hsome, if_true]
        rintro m ⟨⟩
        exact h
      · simp only [counting, hsome, Bool.false_eq_true, if_false, enter_world]
        omega
    · rintro (_ | problem) steps ctx st h
      · exact h
      · rintro m ⟨⟩
  | rebind t sym b ih =>
    rw [Body.run, bindName_fst]
    exact ih _ _ (by rwa [enter_world])

end Counting

/-! ## Kinds of variables -/

section Kinds

variable {s : Symbol} {special : Symbol → Bool} {steps : List (Step Symbol Form Unit)}
  {ctx : Context Symbol Unit} {st : State Symbol Unit ℕ}

def nothing (_ : Form) (_ : Env Symbol) : Computation Symbol Unit ℕ (Option ℕ) Unit := fun st =>
  (.ok (), st)

/-- The place of a variable. -/
def place (s : Symbol) (env : Env Symbol) : Computation Symbol Unit ℕ (Option ℕ) (Option Place) :=
  fun st => (.ok (env s), st)

theorem enter_env_iff {kind : Bool} {value : Unit} :
    (enter kind (.source s) value ctx st).1.env s = some Place.special ↔ kind = true := by
  cases kind <;> simp

theorem run_kind {C : Option Problem → Prop}
    {R : Except (Option ℕ) (Option Place) → Prop}
    {k : Context Symbol Unit → Computation Symbol Unit ℕ (Option ℕ) (Option Place)}
    (hC : ∀ problem, C (some problem) → R (.error none))
    (hsteps : ∀ step ∈ steps, step.Fits special C) (hbound : .source s ∈ boundNames steps)
    (hk : ∀ ctx st, (ctx.env s = some Place.special ↔ special s = true) → R (k ctx st).1) :
    R (run countingObjects nothing steps ctx k st).1 := by
  have hstep (kind : Bool) (name : Name Symbol) (steps : List (Step Symbol Form Unit))
      (ctx : Context Symbol Unit) (st : State Symbol Unit ℕ)
      (hkind : kind = name.isSpecial special)
      (h : (ctx.env s = some Place.special ↔ special s = true) ∨
        .source s ∈ name :: boundNames steps) :
      ((enter kind name () ctx st).1.env s = some Place.special ↔ special s = true) ∨
        .source s ∈ boundNames steps := by
    by_cases hname : name = .source s
    · subst hname
      rw [enter_env_iff, hkind]
      exact .inl Iff.rfl
    · rw [enter_env hname]
      exact h.imp_right fun h => (List.mem_cons.1 h).resolve_left (Ne.symm hname)
  refine run_fst (I := fun steps ctx _ => (∀ step ∈ steps, step.Fits special C) ∧
    ((ctx.env s = some Place.special ↔ special s = true) ∨ .source s ∈ boundNames steps))
    ?_ ?_ ?_ ?_ ⟨hsteps, .inr hbound⟩
  · rintro kind name value steps ctx st ⟨hsteps, h⟩
    obtain ⟨hkind, hsteps⟩ := List.forall_mem_cons.1 hsteps
    exact ⟨hsteps, hstep kind name steps ctx st hkind h⟩
  · rintro kind name form steps ctx st ⟨hsteps, h⟩
    obtain ⟨hkind, hsteps⟩ := List.forall_mem_cons.1 hsteps
    exact ⟨hsteps, hstep kind name steps ctx st hkind h⟩
  · rintro (_ | problem) steps ctx st ⟨hsteps, h⟩
    · exact ⟨(List.forall_mem_cons.1 hsteps).2, h⟩
    · exact hC problem (List.forall_mem_cons.1 hsteps).1
  · rintro ctx st ⟨-, h⟩
    exact hk ctx st (h.resolve_right nofun)

omit [DecidableEq Symbol] in
theorem auxSteps_fits (vars : List (Symbol × Form)) (C : Option Problem → Prop) :
    ∀ step ∈ (auxSteps special vars : List (Step Symbol Form Value)), step.Fits special C := by
  intro step hstep
  obtain ⟨var, -, rfl⟩ := List.mem_map.1 hstep
  rfl

omit [DecidableEq Symbol] in
theorem boundNames_auxSteps (vars : List (Symbol × Form)) :
    boundNames (auxSteps special vars : List (Step Symbol Form Value)) =
      vars.map fun var => .source var.1 := by
  simp [auxSteps, boundNames, Step.name, List.filterMap_map, Function.comp_def]

theorem Body.run_lexical {proclaimed : Symbol → Bool} {vars : List (Symbol × Form)}
    {decls : List (Decl Symbol)} (hlexical : isSpecial proclaimed decls s = false)
    {var : Symbol × Form} (hmem : var ∈ vars) (hvar : var.1 = s) :
    ((Body.letStar vars decls .forms).run countingObjects nothing proclaimed (place s) ctx st).1 ≠
      .ok (some Place.special) := by
  refine run_kind (s := s) (C := fun _ => True) (R := (· ≠ .ok (some Place.special)))
    (fun _ _ => nofun) (auxSteps_fits vars _) ?_ fun ctx st h => ?_
  · rw [boundNames_auxSteps]
    exact List.mem_map.2 ⟨var, hmem, by rw [hvar]⟩
  · have hfree : declareFree (vars.map Prod.fst) decls ctx.env s = ctx.env s :=
      if_neg fun h => h.2 (List.mem_map.2 ⟨var, hmem, hvar⟩)
    intro heq
    have hspecial : ctx.env s = some Place.special := hfree.symm.trans (Except.ok.inj heq)
    rw [h, hlexical] at hspecial
    cases hspecial

end Kinds

/-! ## Bare keyword parameters -/

def LambdaList.positional {Var : Type} (l : LambdaList Symbol Form Var) : List Var :=
  l.required ++ l.optional.map OptionalParameter.var ++ l.rest.toList

structure BareKey (name : Name Symbol) (l : LambdaList Symbol Form (Name Symbol)) : Prop where
  positional : name ∉ l.positional
  keys : ∀ p ∈ l.keys, p.var = name → p = .atom name

section BareKey

variable {obj : Objects Symbol Value Exit} {special : Symbol → Bool}
  {l : LambdaList Symbol Form (Name Symbol)} {name : Name Symbol}

omit [DecidableEq Symbol] in
theorem boundNames_requiredSteps (names : List (Name Symbol)) (args : List Value) :
    boundNames (requiredSteps obj special names args : List (Step Symbol Form Value)) = names := by
  induction names generalizing args with
  | nil => rfl
  | cons name names ih => exact congrArg (name :: ·) (ih args.tail)

omit [DecidableEq Symbol] in
theorem mem_boundNames {steps : List (Step Symbol Form Value)} {step : Step Symbol Form Value}
    (hstep : step ∈ steps) (hname : step.name = some name) : name ∈ boundNames steps :=
  List.mem_filterMap.2 ⟨step, hstep, hname⟩

variable [DecidableEq Value]

omit [DecidableEq Symbol] in
theorem BareKey.step_eq (h : BareKey name l) (hsup : name ∉ l.suppliedPs.map .source)
    {args : List Value} {step : Step Symbol Form Value}
    (hstep : step ∈ parameterSteps obj special l args) (hname : step.name = some name) :
    step = .bind (name.isSpecial special) name ((lookupKey (obj.key (.keyword name))
      (args.drop (l.required.length + l.optional.length))).getD obj.nil) := by
  have hnot (p : Name Symbol × Option (Initform Symbol Form)) (hp : p ∈ l.parameters)
      (hmem : name ∈ p.1 :: (suppliedP p.2).map .source) : name = p.1 := by
    refine (List.mem_cons.1 hmem).resolve_right fun hmem => hsup ?_
    obtain ⟨s, hs, rfl⟩ := List.mem_map.1 hmem
    exact List.mem_map_of_mem (List.mem_flatMap.2 ⟨p, hp, hs⟩)
  have hpos := h.positional
  simp only [LambdaList.positional, List.mem_append, not_or] at hpos
  obtain ⟨⟨hrequired, hoptional⟩, hrest⟩ := hpos
  have hps : ∀ p, p ∈ l.optional.map (fun p => (p.var, p.init)) ∨
      p ∈ l.keys.map (fun p => (p.var, p.init)) → p ∈ l.parameters := by
    intro p hp
    simp only [LambdaList.parameters, List.mem_append]
    exact hp.elim (fun hp => .inl (.inl (.inr hp))) .inr
  simp only [parameterSteps, List.mem_append, List.mem_cons, List.not_mem_nil, or_false] at hstep
  obtain ((((rfl | hstep) | hstep) | hstep) | rfl | hstep) | rfl := hstep
  · cases hname
  · have hmem := mem_boundNames hstep hname
    rw [boundNames_requiredSteps] at hmem
    exact absurd hmem hrequired
  · have hshape : Shape obj special false (fun _ => True)
        (l.optional.map fun p => (p.var, p.init))
        (optionalSteps obj special l.optional (args.drop l.required.length)) :=
      .optional l.optional (absurd · Bool.false_ne_true)
    have hmem := mem_boundNames hstep hname
    rw [hshape.boundNames_eq, parameterNames, List.mem_flatMap] at hmem
    obtain ⟨p, hp, hmem⟩ := hmem
    obtain rfl := hnot p (hps p (.inl hp)) hmem
    refine absurd ?_ hoptional
    simpa using List.mem_map_of_mem (f := Prod.fst) hp
  · obtain ⟨t, ht, rfl⟩ := List.mem_map.1 hstep
    obtain rfl := Option.some.inj hname
    exact absurd ht hrest
  · cases hname
  · obtain ⟨p, hp, hstep⟩ := List.mem_flatMap.1 hstep
    have hbound := mem_boundNames hstep hname
    have hvar : name = p.var := by
      refine hnot (p.var, p.init) (hps _ (.inr (List.mem_map_of_mem hp))) ?_
      split at hbound
      · rwa [boundNames_suppliedSteps] at hbound
      · rwa [boundNames_missingSteps] at hbound
    obtain rfl := h.keys p hp hvar.symm
    rw [KeyParameter.key] at hstep
    split at hstep
    · next value hvalue =>
      rw [hvalue]
      exact List.mem_singleton.1 hstep
    · next hvalue =>
      rw [hvalue]
      exact List.mem_singleton.1 hstep
  · cases hname

end BareKey

section Watched

variable {l : LambdaList Symbol Form (Name Symbol)} {name : Name Symbol} {s x : Symbol} {n : ℕ}

omit [DecidableEq Symbol] in
theorem vars_eq : l.vars = l.positional ++ l.keys.map KeyParameter.var := by
  simp [LambdaList.vars, LambdaList.parameters, LambdaList.positional, Function.comp_def]

omit [DecidableEq Symbol] in
theorem BareKey.of_nodup (h : .atom name ∈ l.keys) (hnodup : l.vars.Nodup) : BareKey name l := by
  rw [vars_eq] at hnodup
  obtain ⟨-, hkeys, hdisjoint⟩ := List.nodup_append.1 hnodup
  have hmem : name ∈ l.keys.map KeyParameter.var := List.mem_map.2 ⟨_, h, rfl⟩
  refine ⟨fun hpos => hdisjoint name hpos name hmem rfl, fun p hp hvar => ?_⟩
  exact List.inj_on_of_nodup_map hkeys hp h hvar

theorem positional_replace (l : LambdaList Symbol Form (Name Symbol)) :
    (l.replace s n).positional = l.positional.map (replaceName s n) := by
  simp [LambdaList.positional, LambdaList.replace, Function.comp_def, Option.toList_map]

theorem BareKey.of_replace {name' : Name Symbol} (h : BareKey name l)
    (hname : ∀ m ∈ l.vars, replaceName s n m = name' → m = name) :
    BareKey name' (l.replace s n) := by
  rw [vars_eq] at hname
  constructor
  · rw [positional_replace]
    intro hmem
    obtain ⟨m, hm, heq⟩ := List.mem_map.1 hmem
    obtain rfl := hname m (List.mem_append_left _ hm) heq
    exact h.positional hm
  · rw [keys_replace]
    intro p hp hvar
    obtain ⟨q, hq, rfl⟩ := List.mem_map.1 hp
    rw [KeyParameter.var_replace] at hvar
    have hq' := hname q.var (List.mem_append_right _ (List.mem_map_of_mem hq)) hvar
    rw [h.keys q hq hq'] at hvar ⊢
    exact congrArg KeyParameter.atom hvar

/-- The special variables that a body rebinds, with the symbols. -/
def Body.rebinds : Body Symbol Form → List (Symbol × ℕ)
  | .forms => []
  | .letStar _ _ b => b.rebinds
  | .rebind s n b => (s, n) :: b.rebinds

structure Watched (x : Symbol) (n : ℕ) (form : Expression Symbol Form (Name Symbol)) : Prop where
  bare : BareKey (.source x) form.lambdaList
  gensym : ∀ m, .gensym m ∈ form.lambdaList.vars → m < n
  rebinds : ∀ g, (x, g) ∈ form.body.rebinds → g < n ∧ BareKey (.gensym g) form.lambdaList

theorem Watched.rewriteSpecial {form : Expression Symbol Form (Name Symbol)}
    (h : Watched x n form) (s : Symbol) : Watched x (n + 1) (rewriteSpecial s n form) where
  bare := h.bare.of_replace fun m _ heq => eq_of_replaceName heq
  gensym := gensym_lt_replace h.gensym s
  rebinds g hg := by
    obtain heq | hg := List.mem_cons.1 hg
    · obtain ⟨rfl, rfl⟩ := Prod.mk.inj heq
      refine ⟨Nat.lt_succ_self g, h.bare.of_replace fun m hm heq => ?_⟩
      rw [replaceName] at heq
      split at heq
      · assumption
      · exact absurd (h.gensym g (heq ▸ hm)) (Nat.lt_irrefl g)
    · obtain ⟨hlt, hbare⟩ := h.rebinds g hg
      refine ⟨Nat.lt_succ_of_lt hlt, hbare.of_replace fun m _ heq => ?_⟩
      rw [replaceName] at heq
      split at heq
      · exact absurd (Name.gensym.inj heq) (Nat.ne_of_gt hlt)
      · exact heq

theorem Watched.rewriteSpecials {specials : List Symbol}
    {form : Expression Symbol Form (Name Symbol)} (h : Watched x n form) :
    Watched x (n + specials.length) (rewriteSpecials specials n form) := by
  induction specials generalizing n form with
  | nil => exact h
  | cons s specials ih =>
    rw [List.length_cons, Nat.add_comm specials.length, ← Nat.add_assoc]
    exact ih (h.rewriteSpecial s)

end Watched

section Watching

/-- The value that a call gives to the bare keyword parameter. -/
def given : Option (Option (Key Symbol)) := some none

/-- Exits when the variable has the given value. -/
def watching {β : Type} (x : Symbol) (value : β) :
    Computation Symbol (Option (Option (Key Symbol))) Unit Bool β := fun st =>
  if st.dynamic x = some given then (.error true, st) else (.ok value, st)

def watchingObjects : Objects Symbol (Option (Option (Key Symbol))) Bool where
  nil := none
  t := none
  list _ := none
  key k := some (some k)
  allowOtherKeys := none
  signal _ := false

variable {x : Symbol} {steps : List (Step Symbol Form (Option (Option (Key Symbol))))}
  {ctx : Context Symbol (Option (Option (Key Symbol)))}
  {st : State Symbol (Option (Option (Key Symbol))) Unit}
  {k : Context Symbol (Option (Option (Key Symbol))) →
    Computation Symbol (Option (Option (Key Symbol))) Unit Bool Unit}

theorem exits_given (hclean : ∀ problem, .check problem ∈ steps → problem = none)
    (hsteps : ∀ step ∈ steps, step.name = some (.source x) →
      step = .bind true (.source x) given)
    (hmem : .bind true (.source x) given ∈ steps)
    (hk : ∀ ctx st, st.dynamic x = some given → (k ctx st).1 = .error true) :
    (run watchingObjects (fun _ _ => watching x none) steps ctx k st).1 = .error true := by
  refine run_fst (R := (· = .error true)) (I := fun steps _ st =>
    (∀ problem, .check problem ∈ steps → problem = none) ∧
    (∀ step ∈ steps, step.name = some (.source x) → step = .bind true (.source x) given) ∧
      (st.dynamic x = some given ∨ .bind true (.source x) given ∈ steps))
    ?_ ?_ ?_ ?_ ⟨hclean, hsteps, .inr hmem⟩
  · rintro special name value steps ctx st ⟨hclean, hsteps, h⟩
    obtain ⟨hstep, hsteps⟩ := List.forall_mem_cons.1 hsteps
    refine ⟨fun p hp => hclean p (List.mem_cons_of_mem _ hp), hsteps, ?_⟩
    by_cases hname : name = .source x
    · subst hname
      obtain ⟨rfl, -, rfl⟩ := Step.bind.inj (hstep rfl)
      exact .inl enter_special_dynamic
    · rw [enter_dynamic hname]
      refine h.imp_right fun h => List.mem_of_ne_of_mem (fun heq => hname ?_) h
      exact (Step.bind.inj heq).2.1.symm
  · rintro special name form steps ctx st ⟨hclean, hsteps, h⟩
    obtain ⟨hstep, hsteps⟩ := List.forall_mem_cons.1 hsteps
    by_cases hgiven : st.dynamic x = some given
    · simp [watching, hgiven]
    · simp only [watching, hgiven, if_false]
      refine ⟨fun p hp => hclean p (List.mem_cons_of_mem _ hp), hsteps, .inr ?_⟩
      exact List.mem_of_ne_of_mem (by simp) (h.resolve_left hgiven)
  · rintro problem steps ctx st ⟨hclean, hsteps, h⟩
    obtain rfl := hclean problem List.mem_cons_self
    exact ⟨fun p hp => hclean p (List.mem_cons_of_mem _ hp),
      (List.forall_mem_cons.1 hsteps).2, h.imp_right fun h => List.mem_of_ne_of_mem (by simp) h⟩
  · rintro ctx st ⟨-, -, h⟩
    exact hk ctx st (h.resolve_right List.not_mem_nil)

theorem not_exits (hbound : .source x ∉ boundNames steps) (G : ℕ → Prop)
    (hsteps : ∀ g, G g → ∀ step ∈ steps, step.name = some (.gensym g) →
      step = .bind false (.gensym g) none)
    (hsyms : ∀ g, G g → ctx.syms g = none) (hst : st.dynamic x ≠ some given)
    (hk : ∀ ctx st, (∀ g, G g → ctx.syms g = none) → st.dynamic x ≠ some given →
      (k ctx st).1 ≠ .error true) :
    (run watchingObjects (fun _ _ => watching x none) steps ctx k st).1 ≠ .error true := by
  refine run_fst (R := (· ≠ .error true)) (I := fun steps ctx st =>
    .source x ∉ boundNames steps ∧ (∀ g, G g → ∀ step ∈ steps, step.name = some (.gensym g) →
      step = .bind false (.gensym g) none) ∧ (∀ g, G g → ctx.syms g = none) ∧
        st.dynamic x ≠ some given) ?_ ?_ ?_ ?_ ⟨hbound, hsteps, hsyms, hst⟩
  · rintro special name value steps ctx st ⟨hbound, hsteps, hsyms, hst⟩
    obtain ⟨hne, hbound⟩ := List.ne_and_not_mem_of_not_mem_cons hbound
    refine ⟨hbound, fun g hg => (List.forall_mem_cons.1 (hsteps g hg)).2, fun g hg => ?_,
      by rwa [enter_dynamic (Ne.symm hne)]⟩
    by_cases hname : name = .gensym g
    · subst hname
      obtain ⟨-, -, rfl⟩ := Step.bind.inj (hsteps g hg _ List.mem_cons_self rfl)
      exact enter_gensym_syms
    · rw [enter_syms hname]
      exact hsyms g hg
  · rintro special name form steps ctx st ⟨hbound, hsteps, hsyms, hst⟩
    obtain ⟨hne, hbound⟩ := List.ne_and_not_mem_of_not_mem_cons hbound
    simp only [watching, hst, if_false]
    refine ⟨hbound, fun g hg => (List.forall_mem_cons.1 (hsteps g hg)).2, fun g hg => ?_,
      by rwa [enter_dynamic (Ne.symm hne)]⟩
    have hname : name ≠ .gensym g := fun heq =>
      nomatch hsteps g hg _ List.mem_cons_self (congrArg some heq)
    rw [enter_syms hname]
    exact hsyms g hg
  · rintro (_ | problem) steps ctx st ⟨hbound, hsteps, hsyms, hst⟩
    · exact ⟨hbound, fun g hg => (List.forall_mem_cons.1 (hsteps g hg)).2, hsyms, hst⟩
    · nofun
  · rintro ctx st ⟨-, -, hsyms, hst⟩
    exact hk ctx st hsyms hst

theorem enter_ne_given {special : Bool} {name : Name Symbol}
    (h : st.dynamic x ≠ some given) :
    (enter special name none ctx st).2.dynamic x ≠ some given := by
  by_cases hname : name = .source x
  · subst hname
    cases special with
    | true => simp [given]
    | false => exact h
  · rwa [enter_dynamic hname]

omit [DecidableEq Symbol] in
theorem source_ne_gensym (s : Symbol) (g : ℕ) : Name.source s ≠ .gensym g := nofun

theorem Body.not_exits {proclaimed : Symbol → Bool} (b : Body Symbol Form)
    (hsyms : ∀ g, (x, g) ∈ b.rebinds → ctx.syms g = none) (hst : st.dynamic x ≠ some given) :
    (b.run watchingObjects (fun _ _ => watching x none) proclaimed (fun _ => watching x ())
      ctx st).1 ≠ .error true := by
  induction b generalizing ctx st with
  | forms => simp [Body.run, watching, hst]
  | letStar vars decls b ih =>
    refine run_fst (R := (· ≠ .error true)) (I := fun steps ctx st =>
      (∀ step ∈ steps, step ∈ auxSteps (isSpecial proclaimed decls) vars) ∧
        (∀ g, (x, g) ∈ b.rebinds → ctx.syms g = none) ∧ st.dynamic x ≠ some given)
      ?_ ?_ ?_ ?_ ⟨fun _ => id, hsyms, hst⟩
    · rintro special name value steps ctx st ⟨hsteps, -⟩
      obtain ⟨var, -, heq⟩ := List.mem_map.1 (hsteps _ List.mem_cons_self)
      cases heq
    · rintro special name form steps ctx st ⟨hsteps, hsyms, hst⟩
      obtain ⟨var, -, heq⟩ := List.mem_map.1 (hsteps _ List.mem_cons_self)
      obtain ⟨-, rfl, -⟩ := Step.init.inj heq
      simp only [watching, hst, if_false]
      refine ⟨(List.forall_mem_cons.1 hsteps).2, fun g hg => ?_, enter_ne_given hst⟩
      rw [enter_syms (source_ne_gensym _ _)]
      exact hsyms g hg
    · rintro problem steps ctx st ⟨hsteps, -⟩
      obtain ⟨var, -, heq⟩ := List.mem_map.1 (hsteps _ List.mem_cons_self)
      cases heq
    · rintro ctx st ⟨-, hsyms, hst⟩
      exact ih hsyms hst
  | rebind s n b ih =>
    rw [Body.run, bindName_fst]
    refine ih (fun g hg => ?_) ?_
    · rw [enter_syms (source_ne_gensym _ _)]
      exact hsyms g (List.mem_cons_of_mem _ hg)
    · by_cases hs : s = x
      · subst hs
        rw [hsyms n List.mem_cons_self]
        exact enter_ne_given hst
      · rwa [enter_dynamic fun heq => hs (Name.source.inj heq)]

theorem exits_aux {special : Symbol → Bool} (vars : List (Symbol × Form))
    (hst : st.dynamic x = some given)
    (hk : ∀ ctx, (k ctx st).1 = .error true) :
    (run watchingObjects (fun _ _ => watching x none) (auxSteps special vars) ctx k st).1 =
      .error true := by
  cases vars with
  | nil => exact hk ctx
  | cons var vars => simp [auxSteps, run, andThen, watching, hst]

end Watching

/-! ## The rewritten expression -/

section Rewritten

variable {specials : List Symbol} {n : ℕ} {form : Expression Symbol Form (Name Symbol)}

theorem rewriteSpecials_required :
    (rewriteSpecials specials n form).lambdaList.required.length =
      form.lambdaList.required.length := by
  induction specials generalizing n form with
  | nil => rfl
  | cons s specials ih => simp [rewriteSpecials, ih, rewriteSpecial, LambdaList.replace]

theorem rewriteSpecials_optional :
    (rewriteSpecials specials n form).lambdaList.optional.length =
      form.lambdaList.optional.length := by
  induction specials generalizing n form with
  | nil => rfl
  | cons s specials ih => simp [rewriteSpecials, ih, rewriteSpecial, LambdaList.replace]

theorem rewriteSpecials_inits :
    (rewriteSpecials specials n form).lambdaList.parameters.map Prod.snd =
      form.lambdaList.parameters.map Prod.snd := by
  induction specials generalizing n form with
  | nil => rfl
  | cons s specials ih =>
    simp [rewriteSpecials, ih, rewriteSpecial, parameters_replace, Function.comp_def]

theorem rewriteSpecials_suppliedPs :
    (rewriteSpecials specials n form).lambdaList.suppliedPs = form.lambdaList.suppliedPs := by
  induction specials generalizing n form with
  | nil => rfl
  | cons s specials ih => simp [rewriteSpecials, ih, rewriteSpecial, suppliedPs_replace]

theorem not_mem_rewriteSpecials {s : Symbol}
    (h : s ∈ specials ∨ .source s ∉ form.lambdaList.vars) :
    .source s ∉ (rewriteSpecials specials n form).lambdaList.vars := by
  induction specials generalizing n form with
  | nil => exact h.resolve_left List.not_mem_nil
  | cons t specials ih =>
    refine ih ?_
    by_cases hs : s ∈ specials
    · exact .inl hs
    · refine .inr fun hmem => ?_
      rw [rewriteSpecial, vars_replace, List.mem_map] at hmem
      obtain ⟨name, hname, heq⟩ := hmem
      obtain rfl := eq_of_replaceName heq
      obtain h | h := h
      · obtain rfl := (List.mem_cons.1 h).resolve_right hs
        rw [replaceName, if_pos rfl] at heq
        cases heq
      · exact h hname

omit [DecidableEq Symbol] in
theorem mem_parameterNames {l : LambdaList Symbol Form (Name Symbol)} {s : Symbol} :
    .source s ∈ parameterNames l.parameters ↔ .source s ∈ l.vars ∨ s ∈ l.suppliedPs := by
  simp only [parameterNames, LambdaList.vars, LambdaList.suppliedPs, List.mem_flatMap,
    List.mem_cons, List.mem_map, Name.source.injEq, exists_eq_right]
  constructor
  · rintro ⟨p, hp, h | h⟩
    · exact .inl ⟨p, hp, h.symm⟩
    · exact .inr ⟨p, hp, h⟩
  · rintro (⟨p, hp, h⟩ | ⟨p, hp, h⟩)
    · exact ⟨p, hp, .inl h.symm⟩
    · exact ⟨p, hp, .inr h⟩

end Rewritten

omit [DecidableEq Symbol] in
theorem minimal_shape [DecidableEq Value] {obj : Objects Symbol Value Exit}
    {special : Symbol → Bool} {l : LambdaList Symbol Form (Name Symbol)} {args : List Value}
    (h : args.length = l.required.length) :
    Shape obj special true (· = none) l.parameters (parameterSteps obj special l args) := by
  have hdrop : args.drop (l.required.length + l.optional.length) = [] :=
    List.drop_eq_nil_of_le (by omega)
  refine .parameterSteps l (fun _ => h.le) ?_ ?_ ?_
  · rw [checkArity, if_neg]
    omega
  · rw [hdrop, checkOdd, if_neg]
    simp
  · rw [hdrop, checkKeywords, if_neg]
    simp [hasUnrecognized]

section Results

variable {proclaimed : Symbol → Bool} {l : Lambda Symbol Form}

theorem mem_specials {s : Symbol} :
    s ∈ specials proclaimed l ↔
      s ∈ l.lambdaList.vars ∧ isSpecial proclaimed l.decls s = true := by
  rw [specials, List.mem_reverse, List.mem_filter]

theorem maybeRewriteLambda_inits :
    (maybeRewriteLambda proclaimed l).lambdaList.parameters.countP (fun p => p.2.isSome) =
      l.lambdaList.source.parameters.countP fun p => p.2.isSome := by
  have hcount (ps : List (Name Symbol × Option (Initform Symbol Form))) :
      ps.countP (fun p => p.2.isSome) = (ps.map Prod.snd).countP Option.isSome := by
    rw [List.countP_map]
    rfl
  rw [hcount, maybeRewriteLambda_eq, rewriteSpecials_inits, ← hcount]

theorem not_mem_maybeRewriteLambda {s : Symbol} (hs : s ∈ specials proclaimed l) :
    .source s ∉ parameterNames (maybeRewriteLambda proclaimed l).lambdaList.parameters := by
  obtain ⟨-, -, hdisjoint⟩ := List.nodup_append.1 l.nodup
  have hmem := (mem_specials.1 hs).1
  rw [mem_parameterNames, not_or, maybeRewriteLambda_eq, rewriteSpecials_suppliedPs,
    suppliedPs_source]
  exact ⟨not_mem_rewriteSpecials (.inl hs), fun hsup => hdisjoint s hmem s hsup rfl⟩

theorem maybeRewriteLambda_required :
    (maybeRewriteLambda proclaimed l).lambdaList.required.length =
      l.lambdaList.required.length := by
  rw [maybeRewriteLambda_eq, rewriteSpecials_required, LambdaList.source, List.length_map]

theorem not_preserves_of_later
    (h : ¬ l.lambdaList.parameters.Pairwise fun p q =>
      isSpecial proclaimed l.decls p.1 = true → q.2.isNone) : ¬ Preserves proclaimed l := by
  obtain ⟨hvars, -, hdisjoint⟩ := List.nodup_append.1 l.nodup
  obtain ⟨s, hspecial, hafter⟩ : ∃ s, isSpecial proclaimed l.decls s = true ∧
      InitAfter s l.lambdaList.source.parameters := by
    refine exists_initAfter (by rwa [parameters_source, List.pairwise_map]) ?_
    rw [← LambdaList.vars, vars_source]
    exact hvars.map fun _ _ => Name.source.inj
  have hmem : s ∈ l.lambdaList.vars := by
    have hmem := hafter.mem
    rw [← LambdaList.vars, vars_source, List.mem_map] at hmem
    obtain ⟨t, ht, hname⟩ := hmem
    rwa [← Name.source.inj hname]
  have hsup : ∀ p ∈ l.lambdaList.source.parameters, s ∉ suppliedP p.2 := by
    have hsup : s ∉ l.lambdaList.source.suppliedPs := by
      rw [suppliedPs_source]
      exact fun hs => hdisjoint s hmem s hs rfl
    simpa [LambdaList.suppliedPs] using hsup
  intro hpreserves
  let args : List Unit := List.replicate l.lambdaList.required.length ()
  let st : State Symbol Unit ℕ := ⟨fun _ => none, fun _ => none, 0, 0⟩
  have hshape : Shape countingObjects (isSpecial proclaimed l.decls) true (· = none)
      l.lambdaList.source.parameters
      (parameterSteps countingObjects (isSpecial proclaimed l.decls) l.lambdaList.source args) :=
    minimal_shape (by simp [args, LambdaList.source])
  have hshape' : Shape countingObjects
      (isSpecial proclaimed (maybeRewriteLambda proclaimed l).decls) true (· = none)
      (maybeRewriteLambda proclaimed l).lambdaList.parameters
      (parameterSteps countingObjects
        (isSpecial proclaimed (maybeRewriteLambda proclaimed l).decls)
        (maybeRewriteLambda proclaimed l).lambdaList args) :=
    minimal_shape (by simp [args, maybeRewriteLambda_required])
  have hlate : LateExit (l.lambdaList.source.parameters.countP fun p => p.2.isSome)
      ((maybeRewriteLambda proclaimed l).apply countingObjects (counting s) proclaimed
        (fun _ st => (.ok (), st)) args (fun _ => none) st).1 := by
    refine exits_late ?_ rfl ?_ fun ctx st h => Body.exits_late _ _ st h
    · rw [hshape'.boundNames_eq]
      exact not_mem_maybeRewriteLambda (mem_specials.2 ⟨hmem, hspecial⟩)
    · rw [hshape'.inits_eq, maybeRewriteLambda_inits]
      simp [st]
  rw [hpreserves, Lambda.apply, run_append] at hlate
  refine not_lateExit (fun problem hp => hshape.fits _ hp)
    (hshape.boundBefore hspecial hafter hsup) rfl ?_ hlate
  rw [hshape.inits_eq]
  simp [st]

theorem rewriteSpecials_body {P : Body Symbol Form → Prop}
    (hP : ∀ s n b, P b → P (.rebind s n b)) {specials : List Symbol} {n : ℕ}
    {form : Expression Symbol Form (Name Symbol)} (h : P form.body) :
    P (rewriteSpecials specials n form).body := by
  induction specials generalizing n form with
  | nil => exact h
  | cons s specials ih => exact ih (hP s n _ h)

/-- A special `&AUX` variable with the name of a parameter is lexical in the `LET*`. -/
theorem not_preserves_of_aux {var : Symbol × Form} (hvar : var ∈ l.aux.getD [])
    (hname : var.1 ∈ l.lambdaList.names)
    (h : isSpecial proclaimed l.decls var.1 ≠ proclaimed var.1) : ¬ Preserves proclaimed l := by
  have hspecial : isSpecial proclaimed l.decls var.1 = true ∧ proclaimed var.1 = false := by
    rw [isSpecial] at h ⊢
    cases hp : proclaimed var.1 <;> simp_all
  obtain ⟨vars, haux⟩ : ∃ vars, l.aux = some vars := by
    cases haux : l.aux with
    | none => simp [haux] at hvar
    | some vars => exact ⟨vars, rfl⟩
  rw [haux, Option.getD_some] at hvar
  intro hpreserves
  let args : List Unit := List.replicate l.lambdaList.required.length ()
  let st : State Symbol Unit ℕ := ⟨fun _ => none, fun _ => none, 0, 0⟩
  have hshape : Shape countingObjects (isSpecial proclaimed l.decls) true (· = none)
      l.lambdaList.source.parameters
      (parameterSteps countingObjects (isSpecial proclaimed l.decls) l.lambdaList.source args) :=
    minimal_shape (by simp [args, LambdaList.source])
  have hsource : (l.apply countingObjects nothing proclaimed (place var.1) args
      (fun _ => none) st).1 = .ok (some Place.special) := by
    refine run_kind (s := var.1) (R := (· = .ok (some Place.special))) (fun _ => by rintro ⟨⟩)
      (List.forall_mem_append.2 ⟨hshape.fits, auxSteps_fits _ _⟩) ?_ fun ctx st hkind => ?_
    · rw [boundNames_append, boundNames_auxSteps, haux, Option.getD_some]
      exact List.mem_append_right _ (List.mem_map.2 ⟨var, hvar, rfl⟩)
    · have hfree : declareFree (l.lambdaList.source.bound ++ (l.aux.getD []).map Prod.fst)
          l.decls ctx.env var.1 = ctx.env var.1 :=
        if_neg fun h => h.2 (List.mem_append_left _ (mem_bound_source.2 hname))
      rw [place, hfree, hkind.2 hspecial.1]
  have hrewritten : ((maybeRewriteLambda proclaimed l).apply countingObjects nothing proclaimed
      (place var.1) args (fun _ => none) st).1 ≠ .ok (some Place.special) := by
    have hbody : ∀ ctx st, ((maybeRewriteLambda proclaimed l).body.run countingObjects nothing
        proclaimed (place var.1) ctx st).1 ≠ .ok (some Place.special) := by
      rw [maybeRewriteLambda_eq]
      refine rewriteSpecials_body (P := fun b => ∀ ctx st, (b.run countingObjects nothing
        proclaimed (place var.1) ctx st).1 ≠ .ok (some Place.special)) ?_ ?_
      · intro s n b hb ctx st
        rw [Body.run, bindName_fst]
        exact hb _ _
      · rw [show (rewriteAuxVars l).body = .letStar vars
          (rewriteAuxVarsProcessDecls l.lambdaList.names l.decls).2 .forms by
            simp [rewriteAuxVars, haux]]
        intro ctx st
        refine Body.run_lexical ?_ hvar rfl
        simp [isSpecial, mem_processDecls, hname, hspecial.2]
    refine run_fst (R := (· ≠ .ok (some Place.special))) (I := fun _ _ _ => True) ?_ ?_ ?_
      (fun ctx st _ => hbody _ st) trivial
    · exact fun _ _ _ _ _ _ _ => trivial
    · exact fun _ _ _ _ _ _ _ => trivial
    · rintro (_ | problem) steps ctx st -
      · trivial
      · rintro ⟨⟩
  exact hrewritten (by rw [hpreserves, hsource])

theorem maybeRewriteLambda_optional :
    (maybeRewriteLambda proclaimed l).lambdaList.optional.length =
      l.lambdaList.optional.length := by
  rw [maybeRewriteLambda_eq, rewriteSpecials_optional, LambdaList.source, List.length_map]

theorem maybeRewriteLambda_watched {x : Symbol} (hatom : .atom x ∈ l.lambdaList.keys) :
    Watched x (0 + (specials proclaimed l).length) (maybeRewriteLambda proclaimed l) := by
  rw [maybeRewriteLambda_eq]
  refine Watched.rewriteSpecials ⟨.of_nodup (atom_mem_source.2 hatom) ?_, ?_, fun g hg => ?_⟩
  · rw [vars_source]
    exact (List.nodup_append.1 l.nodup).1.map fun _ _ => Name.source.inj
  · simp [vars_source]
  · have hnil : (rewriteAuxVars l).body.rebinds = [] := by
      unfold rewriteAuxVars
      split <;> rfl
    simp [hnil] at hg

/-- A call that names the parameter with its keyword does not find it any more. -/
theorem not_preserves_of_atom {x : Symbol} (hatom : .atom x ∈ l.lambdaList.keys)
    (hspecial : isSpecial proclaimed l.decls x = true) : ¬ Preserves proclaimed l := by
  obtain ⟨hvars, -, hdisjoint⟩ := List.nodup_append.1 l.nodup
  have hsource : .atom (.source x) ∈ l.lambdaList.source.keys := atom_mem_source.2 hatom
  have hx : x ∈ l.lambdaList.vars := by
    have hmem : .source x ∈ l.lambdaList.source.vars := by
      rw [vars_eq]
      exact List.mem_append_right _ (List.mem_map.2 ⟨_, hsource, rfl⟩)
    rw [vars_source, List.mem_map] at hmem
    obtain ⟨t, ht, heq⟩ := hmem
    rwa [← Name.source.inj heq]
  have hsup : Name.source x ∉ l.lambdaList.suppliedPs.map .source := fun hmem => by
    obtain ⟨t, ht, heq⟩ := List.mem_map.1 hmem
    exact hdisjoint x hx t ht (Name.source.inj heq).symm
  intro hpreserves
  let keywordArgs : List (Option (Option (Key Symbol))) :=
    [some (some (.keyword (.source x))), given]
  let args := List.replicate (l.lambdaList.required.length + l.lambdaList.optional.length) none ++
    keywordArgs
  let st : State Symbol (Option (Option (Key Symbol))) Unit :=
    ⟨fun _ => none, fun _ => none, 0, ()⟩
  have hdrop (l' : LambdaList Symbol Form (Name Symbol))
      (hrequired : l'.required.length = l.lambdaList.required.length)
      (hoptional : l'.optional.length = l.lambdaList.optional.length) :
      args.drop (l'.required.length + l'.optional.length) = keywordArgs := by
    rw [hrequired, hoptional]
    exact List.drop_left' (by simp)
  have hexit : (l.apply watchingObjects (fun _ _ => watching x none) proclaimed
      (fun _ => watching x ()) args (fun _ => none) st).1 = .error true := by
    have hargs := hdrop l.lambdaList.source (by simp [LambdaList.source])
      (by simp [LambdaList.source])
    have hkey : l.lambdaList.source.key.isSome := by
      cases hkey : l.lambdaList.source.key with
      | none => simp [LambdaList.keys, hkey] at hsource
      | some ps => rfl
    have hshape : Shape watchingObjects (isSpecial proclaimed l.decls) false (· = none)
        l.lambdaList.source.parameters
        (parameterSteps watchingObjects (isSpecial proclaimed l.decls) l.lambdaList.source
          args) := by
      refine .parameterSteps _ (absurd · Bool.false_ne_true) (if_neg ?_) ?_ ?_
      · rintro (hlt | ⟨-, hnone, -⟩)
        · simp [args, LambdaList.source] at hlt
          omega
        · rw [Option.isNone_iff_eq_none.1 hnone] at hkey
          cases hkey
      · rw [hargs]
        exact if_neg fun h => absurd h.2 (by simp [keywordArgs])
      · rw [hargs]
        refine if_neg fun h => absurd h.2.2.2 ?_
        have hmem : some (some (.keyword (.source x))) ∈
            l.lambdaList.source.keys.map fun p => watchingObjects.key p.key :=
          List.mem_map.2 ⟨_, hsource, rfl⟩
        simp only [keywordArgs, hasUnrecognized, hmem]
        simp
    rw [Lambda.apply, run_append]
    refine exits_given (fun p hp => hshape.fits _ hp) (fun step hstep hname => ?_) ?_
      fun ctx st hst => exits_aux _ hst fun ctx => by simp [watching, hst]
    · have hbare : BareKey (.source x) l.lambdaList.source := by
        refine .of_nodup hsource ?_
        rw [vars_source]
        exact hvars.map fun _ _ => Name.source.inj
      rw [hbare.step_eq (by rwa [suppliedPs_source]) hstep hname, hargs]
      simp [Name.isSpecial, hspecial, keywordArgs, lookupKey, watchingObjects]
    · refine List.mem_append_left _ (List.mem_append_right _ (List.mem_cons_of_mem _ ?_))
      refine List.mem_flatMap.2 ⟨_, hsource, ?_⟩
      simp [hargs, KeyParameter.key, keywordArgs, lookupKey, watchingObjects, suppliedSteps,
        KeyParameter.var, Name.isSpecial, hspecial]
  have hother : ((maybeRewriteLambda proclaimed l).apply watchingObjects
      (fun _ _ => watching x none) proclaimed (fun _ => watching x ()) args
      (fun _ => none) st).1 ≠ .error true := by
    have hwatched : Watched x _ (maybeRewriteLambda proclaimed l) :=
      maybeRewriteLambda_watched hatom
    have hargs := hdrop (maybeRewriteLambda proclaimed l).lambdaList maybeRewriteLambda_required
      maybeRewriteLambda_optional
    refine not_exits ?_ (fun g => (x, g) ∈ (maybeRewriteLambda proclaimed l).body.rebinds)
      (fun g hg step hstep hname => ?_) (fun g _ => rfl) (by simp [st]) fun ctx st hsyms hst =>
        Body.not_exits _ hsyms hst
    · rw [(parameterSteps_shape _ _).boundNames_eq]
      exact not_mem_maybeRewriteLambda (mem_specials.2 ⟨hx, hspecial⟩)
    · rw [(hwatched.rebinds g hg).2.step_eq (by simp) hstep hname, hargs]
      simp [Name.isSpecial, keywordArgs, lookupKey, watchingObjects]
  exact hother (by rw [hpreserves, hexit])

/-- The lambda expressions that the rewriting preserves are the safe ones. -/
theorem preserves_iff (proclaimed : Symbol → Bool) (l : Lambda Symbol Form) :
    Preserves proclaimed l ↔ Safe proclaimed l := by
  constructor
  · intro h
    refine ⟨?_, fun x hx => ?_, fun var hvar hname => ?_⟩
    · by_contra hnot
      exact not_preserves_of_later hnot h
    · by_contra hspecial
      exact not_preserves_of_atom hx (by simpa using hspecial) h
    · by_contra hnot
      exact not_preserves_of_aux hvar hname hnot h
  · exact Safe.preserves

end Results

/-- `(lambda (&key x) (declare (special x)) …)`; the symbols are numbers, `x` is 0. -/
def specialKey : Lambda ℕ ℕ where
  lambdaList := ⟨[], [], none, some [.atom 0], false⟩
  aux := none
  decls := [.special [0]]
  nodup := by decide

theorem not_preserves_specialKey : ¬ Preserves (fun _ => false) specialKey :=
  not_preserves_of_atom List.mem_cons_self (by decide)

end Xcl.RewriteLambda
