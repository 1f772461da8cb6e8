import Xcl.RewriteLambda.Parameters

/-!
# Rewritten lambda expressions that do the same

* `Ready`, `rewriteSpecials_apply`: the special parameters, one after the other.
-/

namespace Xcl.RewriteLambda

open Binding

variable {Symbol Form Value World Exit α : Type} [DecidableEq Symbol]
  {obj : Objects Symbol Value Exit}
  {ev : Form → Env Symbol → Computation Symbol Value World Exit Value}
  {proclaimed : Symbol → Bool} {body : Env Symbol → Computation Symbol Value World Exit α}

/-! ## One special parameter -/

/-- The symbols that a body rebinds special variables from are below `n`. -/
def Body.Below (n : ℕ) : Body Symbol Form → Prop
  | .forms => True
  | .letStar _ _ b => b.Below n
  | .rebind _ sym b => sym < n ∧ b.Below n

omit [DecidableEq Symbol] in
theorem Body.Below.succ {n : ℕ} {b : Body Symbol Form} (h : b.Below n) : b.Below (n + 1) := by
  induction b with
  | forms => trivial
  | letStar vars decls b ih => exact ih h
  | rebind s sym b ih => exact ⟨Nat.lt_succ_of_lt h.1, ih h.2⟩

theorem run_auxSteps_syms {special : Symbol → Bool} {n : ℕ} {v : Value}
    {k : Context Symbol Value → Computation Symbol Value World Exit α}
    (hk : ∀ env syms, k ⟨env, Function.update syms n v⟩ = k ⟨env, syms⟩)
    (vars : List (Symbol × Form)) (env : Env Symbol) (syms : ℕ → Value) :
    run obj ev (auxSteps special vars) ⟨env, Function.update syms n v⟩ k =
      run obj ev (auxSteps special vars) ⟨env, syms⟩ k := by
  induction vars generalizing env with
  | nil => exact hk env syms
  | cons var vars ih =>
    simp only [auxSteps, List.map_cons, run, bindName]
    congr 1
    funext w
    congr 1
    funext env
    exact ih env

theorem Body.Below.run_update {n : ℕ} {b : Body Symbol Form} (h : b.Below n) (env : Env Symbol)
    (syms : ℕ → Value) (v : Value) :
    b.run obj ev proclaimed body ⟨env, Function.update syms n v⟩ =
      b.run obj ev proclaimed body ⟨env, syms⟩ := by
  induction b generalizing env syms with
  | forms => rfl
  | letStar vars decls b ih =>
    simp only [Body.run]
    exact run_auxSteps_syms (k := fun ctx => b.run obj ev proclaimed body
      { ctx with env := declareFree (vars.map Prod.fst) decls ctx.env })
      (fun env syms => ih h _ syms) vars env syms
  | rebind s sym b ih =>
    have hsym : sym ≠ n := Nat.ne_of_lt h.1
    simp only [Body.run, bindName, Function.update_of_ne hsym]
    congr 1
    funext env
    exact ih h.2 env syms

structure Ready (special : Symbol → Bool) (s : Symbol) (n : ℕ)
    (form : Expression Symbol Form (Name Symbol)) : Prop where
  special_eq : special s = true
  mem : .source s ∈ form.lambdaList.vars
  nodup : form.lambdaList.vars.Nodup
  suppliedPs : s ∉ form.lambdaList.suppliedPs
  gensym : ∀ m, .gensym m ∈ form.lambdaList.vars → m < n
  atom : .atom (.source s) ∉ form.lambdaList.keys
  later : form.lambdaList.parameters.Pairwise fun p q => p.1 = .source s → q.2.isNone
  below : form.body.Below n

theorem mem_bound_replace {l : LambdaList Symbol Form (Name Symbol)} {s t : Symbol} (n : ℕ)
    (hne : t ≠ s) : t ∈ (l.replace s n).bound ↔ t ∈ l.bound := by
  rw [mem_bound, mem_bound, vars_replace, suppliedPs_replace, List.mem_map]
  refine or_congr_left ⟨?_, fun h => ⟨_, h, ?_⟩⟩
  · rintro ⟨name, hmem, hname⟩
    rw [replaceName] at hname
    split at hname
    · cases hname
    · exact hname ▸ hmem
  · rw [replaceName, if_neg fun h => hne (Name.source.inj h)]

theorem Ready.rewriteSpecial_apply [DecidableEq Value] {s : Symbol} {n : ℕ}
    {form : Expression Symbol Form (Name Symbol)}
    (h : Ready (isSpecial proclaimed form.decls) s n form) (args : List Value) (env : Env Symbol) :
    (rewriteSpecial s n form).apply obj ev proclaimed body args env =
      form.apply obj ev proclaimed body args env := by
  have hmovable : Movable s n
      (parameterSteps obj (isSpecial proclaimed form.decls) form.lambdaList args) :=
    (parameterSteps_shape form.lambdaList args).movable h.special_eq h.mem
      h.nodup (by simpa [LambdaList.suppliedPs] using h.suppliedPs)
      (fun hn => Nat.lt_irrefl n (h.gensym n hn)) h.later
  have hbound : s ∈ form.lambdaList.bound := mem_bound.2 (.inl h.mem)
  let k : Context Symbol Value → Computation Symbol Value World Exit α := fun ctx =>
    form.body.run obj ev proclaimed body
      { ctx with env := declareFree form.lambdaList.bound form.decls ctx.env }
  have hmove := run_replace obj ev (k := k) (fun env syms v => h.below.run_update _ syms v)
    hmovable ⟨env, fun _ => obj.nil⟩
  rw [parameterSteps_replace n h.suppliedPs h.atom] at hmove
  rw [Expression.apply, Expression.apply, ← hmove]
  simp only [rewriteSpecial, Body.run, bindName, withVariable, if_true]
  congr 1
  funext ctx
  congr 3
  funext t
  by_cases ht : t = s
  · subst ht
    simp [declareFree, hbound]
  · simp [declareFree, ht, mem_bound_replace n ht]

/-! ## All special parameters -/

theorem eq_of_replaceName {s t : Symbol} {n : ℕ} {name : Name Symbol}
    (h : replaceName s n name = .source t) : name = .source t := by
  rw [replaceName] at h
  split at h
  · cases h
  · exact h

theorem replaceName_inj {s : Symbol} {n : ℕ} {names : List (Name Symbol)}
    (hn : .gensym n ∉ names) :
    ∀ a ∈ names, ∀ b ∈ names, replaceName s n a = replaceName s n b → a = b := by
  intro a ha b hb heq
  rw [replaceName, replaceName] at heq
  split at heq <;> split at heq
  · next h h' => rw [h, h']
  · exact absurd (heq ▸ hb) hn
  · exact absurd (heq.symm ▸ ha) hn
  · exact heq

theorem atom_of_replace {s t : Symbol} {n : ℕ} {p : KeyParameter Symbol Form (Name Symbol)}
    (h : p.replace s n = .atom (.source t)) : p = .atom (.source t) := by
  cases p with
  | atom x =>
    rw [KeyParameter.replace, KeyParameter.atom.injEq] at h
    rw [eq_of_replaceName h]
  | spec x init =>
    rw [KeyParameter.replace] at h
    split at h <;> cases h
  | keySpec key x init => cases h

theorem gensym_lt_replace {l : LambdaList Symbol Form (Name Symbol)} {n : ℕ}
    (h : ∀ m, .gensym m ∈ l.vars → m < n) (s : Symbol) :
    ∀ m, .gensym m ∈ (l.replace s n).vars → m < n + 1 := by
  intro m hm
  rw [vars_replace, List.mem_map] at hm
  obtain ⟨name, hmem, hname⟩ := hm
  rw [replaceName] at hname
  split at hname
  · cases hname
    exact Nat.lt_succ_self n
  · exact Nat.lt_succ_of_lt (h m (hname ▸ hmem))

theorem Ready.rewriteSpecial {special : Symbol → Bool} {s t : Symbol} {n : ℕ}
    {form : Expression Symbol Form (Name Symbol)} (h : Ready special t n form) (hne : t ≠ s) :
    Ready special t (n + 1) (rewriteSpecial s n form) where
  special_eq := h.special_eq
  mem := by
    rw [RewriteLambda.rewriteSpecial, vars_replace, List.mem_map]
    exact ⟨_, h.mem, if_neg fun ht => hne (Name.source.inj ht)⟩
  nodup := by
    rw [RewriteLambda.rewriteSpecial, vars_replace]
    exact h.nodup.map_on (replaceName_inj fun hn => Nat.lt_irrefl n (h.gensym n hn))
  suppliedPs := by
    rw [RewriteLambda.rewriteSpecial, suppliedPs_replace]
    exact h.suppliedPs
  gensym := gensym_lt_replace h.gensym s
  atom hmem := by
    rw [RewriteLambda.rewriteSpecial, keys_replace, List.mem_map] at hmem
    obtain ⟨p, hp, hatom⟩ := hmem
    exact h.atom (atom_of_replace hatom ▸ hp)
  later := by
    rw [RewriteLambda.rewriteSpecial, parameters_replace, List.pairwise_map]
    exact h.later.imp fun hpq heq => hpq (eq_of_replaceName heq)
  below := ⟨Nat.lt_succ_self n, h.below.succ⟩

theorem rewriteSpecials_apply [DecidableEq Value] {specials : List Symbol} {n : ℕ}
    {form : Expression Symbol Form (Name Symbol)} (hnodup : specials.Nodup)
    (h : ∀ s ∈ specials, Ready (isSpecial proclaimed form.decls) s n form) (args : List Value)
    (env : Env Symbol) :
    (rewriteSpecials specials n form).apply obj ev proclaimed body args env =
      form.apply obj ev proclaimed body args env := by
  induction specials generalizing n form with
  | nil => rfl
  | cons s specials ih =>
    obtain ⟨hs, hnodup⟩ := List.nodup_cons.1 hnodup
    obtain ⟨hready, hrest⟩ := List.forall_mem_cons.1 h
    have hnext : ∀ t ∈ specials, Ready (isSpecial proclaimed form.decls) t (n + 1)
        (rewriteSpecial s n form) := fun t ht =>
      (hrest t ht).rewriteSpecial fun heq => hs (heq ▸ ht)
    exact (ih hnodup hnext).trans (hready.rewriteSpecial_apply args env)

omit [DecidableEq Symbol] in
theorem foldl_scan (special : Symbol → Bool) (vars specials : List Symbol) :
    vars.foldl (fun specials var => if special var then var :: specials else specials) specials =
      (vars.filter special).reverse ++ specials := by
  induction vars generalizing specials with
  | nil => rfl
  | cons var vars ih =>
    by_cases h : special var <;> simp [h, ih]

omit [DecidableEq Symbol] in
theorem scanForSpecials_eq (special : Symbol → Bool) (l : LambdaList Symbol Form Symbol) :
    scanForSpecials special l = (l.vars.filter special).reverse := by
  rw [scanForSpecials, foldl_scan, List.append_nil]

/-! ## `&AUX` variables -/

section Decls

variable {argVars : List Symbol} {s : Symbol}

theorem mem_split_special (names : List Symbol) (r : List (Decl Symbol) × List (Decl Symbol)) :
    (s ∈ processSpecialDeclarations
        (rewriteAuxVarsProcessDecls.split argVars (fun name => .special [name]) names r).1 ↔
      s ∈ names ∧ s ∈ argVars ∨ s ∈ processSpecialDeclarations r.1) ∧
    (s ∈ processSpecialDeclarations
        (rewriteAuxVarsProcessDecls.split argVars (fun name => .special [name]) names r).2 ↔
      s ∈ names ∧ s ∉ argVars ∨ s ∈ processSpecialDeclarations r.2) := by
  induction names with
  | nil => simp [rewriteAuxVarsProcessDecls.split]
  | cons name names ih =>
    rw [rewriteAuxVarsProcessDecls.split]
    by_cases h : name ∈ argVars <;> by_cases hs : s = name <;>
      simp [h, hs, processSpecialDeclarations, ih] <;> simp_all

theorem split_other {f : Symbol → Decl Symbol}
    (hf : ∀ name decls, processSpecialDeclarations (f name :: decls) =
      processSpecialDeclarations decls)
    (names : List Symbol) (r : List (Decl Symbol) × List (Decl Symbol)) :
    processSpecialDeclarations (rewriteAuxVarsProcessDecls.split argVars f names r).1 =
        processSpecialDeclarations r.1 ∧
      processSpecialDeclarations (rewriteAuxVarsProcessDecls.split argVars f names r).2 =
        processSpecialDeclarations r.2 := by
  induction names with
  | nil => exact ⟨rfl, rfl⟩
  | cons name names ih =>
    rw [rewriteAuxVarsProcessDecls.split]
    by_cases h : name ∈ argVars <;> simp [h, hf, ih]

/-- The lambda keeps the special declarations about its parameters, the `LET*` gets the others. -/
theorem mem_processDecls (decls : List (Decl Symbol)) :
    (s ∈ processSpecialDeclarations (rewriteAuxVarsProcessDecls argVars decls).1 ↔
      s ∈ processSpecialDeclarations decls ∧ s ∈ argVars) ∧
    (s ∈ processSpecialDeclarations (rewriteAuxVarsProcessDecls argVars decls).2 ↔
      s ∈ processSpecialDeclarations decls ∧ s ∉ argVars) := by
  induction decls with
  | nil => simp [rewriteAuxVarsProcessDecls, processSpecialDeclarations]
  | cons decl decls ih =>
    cases decl with
    | lambda n => simpa [rewriteAuxVarsProcessDecls, processSpecialDeclarations] using ih
    | special names =>
      simp only [rewriteAuxVarsProcessDecls, mem_split_special, ih, processSpecialDeclarations,
        List.mem_append]
      tauto
    | type n names =>
      simpa [rewriteAuxVarsProcessDecls, processSpecialDeclarations,
        split_other (f := fun name => .type n [name]) (fun _ _ => rfl) names] using ih
    | other n names =>
      simpa [rewriteAuxVarsProcessDecls, processSpecialDeclarations,
        split_other (f := fun name => .other n [name]) (fun _ _ => rfl) names] using ih

end Decls

omit [DecidableEq Symbol] in
theorem auxSteps_congr {special special' : Symbol → Bool} {vars : List (Symbol × Form)}
    (h : ∀ var ∈ vars, special var.1 = special' var.1) :
    (auxSteps special vars : List (Step Symbol Form Value)) = auxSteps special' vars :=
  List.map_congr_left fun var hvar => by rw [h var hvar]

/-- The `LET*` with the `&AUX` variables is right when every declaration about one of them gets
there. -/
theorem rewriteAuxVars_apply [DecidableEq Value] {l : Lambda Symbol Form}
    (h : ∀ var ∈ l.aux.getD [], var.1 ∈ l.lambdaList.names →
      isSpecial proclaimed l.decls var.1 = proclaimed var.1)
    (args : List Value) (env : Env Symbol) :
    Expression.apply obj ev proclaimed body ⟨(rewriteAuxVars l).lambdaList.source,
        (rewriteAuxVars l).decls, (rewriteAuxVars l).body⟩ args env =
      l.apply obj ev proclaimed body args env := by
  cases haux : l.aux with
  | none =>
    simp [rewriteAuxVars, Lambda.apply, Expression.apply, haux, auxSteps, Body.run]
  | some vars =>
    simp only [haux, Option.getD_some] at h
    have hlambda : ∀ s ∈ l.lambdaList.source.bound,
        isSpecial proclaimed (rewriteAuxVarsProcessDecls l.lambdaList.names l.decls).1 s =
          isSpecial proclaimed l.decls s := fun s hs => by
      simp [isSpecial, mem_processDecls, mem_bound_source.1 hs]
    have hlet : ∀ var ∈ vars,
        isSpecial proclaimed (rewriteAuxVarsProcessDecls l.lambdaList.names l.decls).2 var.1 =
          isSpecial proclaimed l.decls var.1 := fun var hvar => by
      by_cases hname : var.1 ∈ l.lambdaList.names
      · rw [h var hvar hname]
        simp [isSpecial, mem_processDecls, hname]
      · simp [isSpecial, mem_processDecls, hname]
    have hfree (env : Env Symbol) : declareFree l.lambdaList.source.bound
        (rewriteAuxVarsProcessDecls l.lambdaList.names l.decls).1 env = env := by
      funext s
      have hs : ¬ (s ∈ processSpecialDeclarations
          (rewriteAuxVarsProcessDecls l.lambdaList.names l.decls).1 ∧
            s ∉ l.lambdaList.source.bound) := fun hs =>
        hs.2 (mem_bound_source.2 ((mem_processDecls l.decls).1.1 hs.1).2)
      exact if_neg hs
    have hbody (env : Env Symbol) : declareFree (vars.map Prod.fst)
        (rewriteAuxVarsProcessDecls l.lambdaList.names l.decls).2 env =
          declareFree (l.lambdaList.source.bound ++ vars.map Prod.fst) l.decls env := by
      funext s
      refine if_congr ?_ rfl rfl
      rw [(mem_processDecls l.decls).2, List.mem_append, not_or, mem_bound_source, and_assoc]
    simp only [rewriteAuxVars, haux, Lambda.apply, Expression.apply, Body.run, Option.getD_some,
      run_append, parameterSteps_congr hlambda, auxSteps_congr hlet, hfree, hbody]

theorem rewriteAuxVars_lambdaList (l : Lambda Symbol Form) :
    (rewriteAuxVars l).lambdaList = l.lambdaList := by
  unfold rewriteAuxVars
  split <;> rfl

theorem isSpecial_rewriteAuxVars (l : Lambda Symbol Form) {s : Symbol}
    (h : s ∈ l.lambdaList.vars) :
    isSpecial proclaimed (rewriteAuxVars l).decls s = isSpecial proclaimed l.decls s := by
  have hname : s ∈ l.lambdaList.names := by
    rw [← mem_bound_source, mem_bound, vars_source]
    exact .inl (List.mem_map_of_mem h)
  unfold rewriteAuxVars
  split
  · rfl
  · simp [isSpecial, mem_processDecls, hname]

/-- The specials that the rewriting takes, the last one first. -/
def specials (proclaimed : Symbol → Bool) (l : Lambda Symbol Form) : List Symbol :=
  (l.lambdaList.vars.filter (isSpecial proclaimed l.decls)).reverse

theorem specials_nodup (l : Lambda Symbol Form) : (specials proclaimed l).Nodup :=
  List.nodup_reverse.2 ((List.nodup_append.1 l.nodup).1.filter _)

theorem maybeRewriteLambda_eq (l : Lambda Symbol Form) :
    maybeRewriteLambda proclaimed l = rewriteSpecials (specials proclaimed l) 0
      ⟨l.lambdaList.source, (rewriteAuxVars l).decls, (rewriteAuxVars l).body⟩ := by
  have hscan : scanForSpecials (isSpecial proclaimed (rewriteAuxVars l).decls) l.lambdaList =
      specials proclaimed l := by
    rw [scanForSpecials_eq, specials]
    congr 1
    exact List.filter_congr fun s hs => isSpecial_rewriteAuxVars l hs
  rw [← hscan, ← rewriteAuxVars_lambdaList l]
  rfl

theorem Safe.ready {l : Lambda Symbol Form} (h : Safe proclaimed l) {s : Symbol}
    (hs : s ∈ specials proclaimed l) :
    Ready (isSpecial proclaimed (rewriteAuxVars l).decls) s 0
      ⟨l.lambdaList.source, (rewriteAuxVars l).decls, (rewriteAuxVars l).body⟩ := by
  obtain ⟨hmem, hspecial⟩ := List.mem_filter.1 (List.mem_reverse.1 hs)
  obtain ⟨hvars, hsup, hdisjoint⟩ := List.nodup_append.1 l.nodup
  refine ⟨?_, ?_, ?_, ?_, ?_, ?_, ?_, ?_⟩
  · rw [isSpecial_rewriteAuxVars l hmem, hspecial]
  · rw [vars_source]
    exact List.mem_map_of_mem hmem
  · rw [vars_source]
    exact hvars.map fun _ _ => Name.source.inj
  · rw [suppliedPs_source]
    exact fun hs => hdisjoint s hmem s hs rfl
  · simp [vars_source]
  · intro hatom
    have hfalse := h.atoms s (atom_mem_source.1 hatom)
    rw [hspecial] at hfalse
    cases hfalse
  · rw [parameters_source, List.pairwise_map]
    exact h.parameters.imp fun hpq heq => hpq (by rw [Name.source.inj heq, hspecial])
  · show (rewriteAuxVars l).body.Below 0
    unfold rewriteAuxVars
    split <;> trivial

theorem Safe.preserves {l : Lambda Symbol Form} (h : Safe proclaimed l) :
    Preserves proclaimed l := by
  intro Value World Exit α _ obj ev body args env
  rw [maybeRewriteLambda_eq, rewriteSpecials_apply (specials_nodup l) fun s hs => h.ready hs,
    ← rewriteAuxVars_apply h.aux, rewriteAuxVars_lambdaList]

end Xcl.RewriteLambda
