import Xcl.Blocks.Marks

/-!
# The blocks that precompiled forms keep

* `Walked`: what the walk keeps of a form.
-/

namespace Xcl.Blocks

/-! ## Exits from outside -/

section Exits

variable (name m : Name) (exits exits' : List Exit) (entry : Option Name)

@[simp] theorem refers_append :
    refers name (exits ++ exits') = (refers name exits || refers name exits') := List.any_append

@[simp] theorem marks_append :
    marks name (exits ++ exits') = (marks name exits || marks name exits') := List.any_append

@[simp] theorem refers_unwalked : refers name (exits.map Exit.unwalked) = refers name exits := by
  simp [refers, Exit.unwalked, Function.comp_def]

@[simp] theorem marks_unwalked : marks name (exits.map Exit.unwalked) = false := by
  simp [marks, Exit.unwalked]

@[simp] theorem refers_under (block : Option Name) :
    refers name (exits.map (Exit.under block entry)) =
      (refers name exits && !(block == some name)) := by
  induction exits with
  | nil => rfl
  | cons exit exits ih =>
    simp only [refers, Exit.under, List.map_cons, List.any_cons] at ih ⊢
    by_cases h : exit.name = name
    · subst h
      simp [ih, Bool.and_or_distrib_right]
    · simp [ih, beq_false_of_ne h]

@[simp] theorem marks_under (block : Option Name) :
    marks name (exits.map (Exit.under block entry)) =
      (marks name exits && !(entry == some name)) := by
  induction exits with
  | nil => rfl
  | cons exit exits ih =>
    simp only [marks, Exit.under, List.map_cons, List.any_cons] at ih ⊢
    by_cases h : exit.name = name
    · subst h
      simp [ih, Bool.and_or_distrib_right]
    · simp [ih, beq_false_of_ne h]

@[simp] theorem refers_cons :
    refers name (⟨m, true, true⟩ :: exits) = (m == name || refers name exits) := by
  simp [refers]

@[simp] theorem marks_cons :
    marks name (⟨m, true, true⟩ :: exits) = (m == name || marks name exits) := by
  simp [marks]

end Exits

variable (scope : DoScope)

theorem refers_car (name : Name) (args : List Form) :
    refers name (loose scope (.car args)) = refers name (looseAll scope args) := by
  match args with
  | [] => rfl
  | [arg] => simp [loose, looseAll]
  | a :: b :: args => simp [loose]

/-! ## Visible blocks -/

theorem Env.bind_congr {env env' : Env} {name : Name} {site : ℕ} {n : Name}
    (h : n ≠ name → env n = env' n) : env.bind name site n = env'.bind name site n := by
  by_cases hn : n = name
  · simp [Env.bind, hn]
  · simp [Env.bind, hn, h hn]

theorem DoScope.env_congr {env env' : Env} {site : ℕ} {n : Name}
    (h : scope.block ≠ some n → env n = env' n) : scope.env env site n = scope.env env' site n := by
  cases scope with
  | entire => exact Env.bind_congr fun hn => h (by simpa [DoScope.block] using Ne.symm hn)
  | afterInits => exact h (by simp [DoScope.block])

theorem DoScope.env_of_ne {env : Env} {site : ℕ} {n : Name} (h : scope.block ≠ some n) :
    scope.env env site n = env n := by
  cases scope with
  | entire => simp_all [DoScope.block, DoScope.env, Env.bind, eq_comm]
  | afterInits => rfl

mutual

theorem exits_congr : ∀ (form : Form) (env env' : Env),
    (∀ n, refers n (loose scope form) → env n = env' n) →
      exits scope env form = exits scope env' form
  | .atom _, _, _, _ => rfl
  | .call _ args, _, _, h => exitsAll_congr args _ _ h
  | .car args, _, _, h => exitsAll_congr args _ _ fun n hn => h n (by rwa [refers_car])
  | .block _ name body, _, _, h => by
    refine exitsAll_congr body _ _ fun n hn => Env.bind_congr fun hne => h n ?_
    simp [loose, hn, Ne.symm hne]
  | .returnFrom name value, env, env', h => by
    have hname : env name = env' name := h name (by simp [loose])
    have hvalue := exits_congr value env env' fun n hn => h n (by simp [loose, hn])
    rw [exits, exits, hname, hvalue]
  | .lambda inits aux body, env, env', h => by
    have hinits := exitsAll_congr inits env env' fun n hn =>
      h n (by simp [loose, hn])
    have haux := exitsAll_congr aux env env' fun n hn =>
      h n (by simp [loose, hn])
    have hbody := exitsAll_congr body env env' fun n hn =>
      h n (by simp [loose, hn])
    rw [exits, exits, hinits, haux, hbody]
  | .doLoop site inits rest, env, env', h => by
    have hinits := exitsAll_congr inits (scope.env env site) (scope.env env' site)
      fun n hn => scope.env_congr fun hne => h n (by simp [loose, hn, hne])
    have hrest := exitsAll_congr rest (env.bind .nil site) (env'.bind .nil site)
      fun n hn => Env.bind_congr fun hne => h n (by simp [loose, hn, Ne.symm hne])
    rw [exits, exits, hinits, hrest]
  | .dolist site spec body, env, env', h => by
    have hspec := exitsAll_congr spec (env.bind .nil site) (env'.bind .nil site)
      fun n hn => Env.bind_congr fun hne => h n (by simp [loose, hn, Ne.symm hne])
    have hbody := exitsAll_congr body (env.bind .nil site) (env'.bind .nil site)
      fun n hn => Env.bind_congr fun hne => h n (by simp [loose, hn, Ne.symm hne])
    rw [exits, exits, hspec, hbody]
  | .localFunction site name inits body, env, env', h => by
    have hinits := exitsAll_congr inits env env' fun n hn =>
      h n (by simp [loose, hn])
    have hbody := exitsAll_congr body (env.bind name.blockName site) (env'.bind name.blockName site)
      fun n hn => Env.bind_congr fun hne => h n (by simp [loose, hn, Ne.symm hne])
    rw [exits, exits, hinits, hbody]

theorem exitsAll_congr : ∀ (forms : List Form) (env env' : Env),
    (∀ n, refers n (looseAll scope forms) → env n = env' n) →
      exitsAll scope env forms = exitsAll scope env' forms
  | [], _, _, _ => rfl
  | form :: forms, env, env', h => by
    have hform := exits_congr form env env' fun n hn =>
      h n (by simp [looseAll, hn])
    have hforms := exitsAll_congr forms env env' fun n hn =>
      h n (by simp [looseAll, hn])
    rw [exitsAll, exitsAll, hform, hforms]

end

mutual

theorem mem_exits : ∀ (form : Form) (env : Env) {n : Name},
    refers n (loose scope form) → env n ∈ exits scope env form
  | .atom _, _, _, h => by simp [loose, refers] at h
  | .call _ args, _, _, h => mem_exitsAll args _ h
  | .car args, _, _, h => mem_exitsAll args _ (by rwa [refers_car] at h)
  | .block site name body, env, n, h => by
    obtain ⟨hbody, hne⟩ : refers n (looseAll scope body) ∧ name ≠ n := by simpa [loose] using h
    have hmem := mem_exitsAll body (env.bind name site) hbody
    rwa [Env.bind, if_neg (Ne.symm hne)] at hmem
  | .returnFrom name value, env, n, h => by
    obtain rfl | hvalue : name = n ∨ refers n (loose scope value) := by simpa [loose] using h
    · simp [exits]
    · simp [exits, mem_exits value _ hvalue]
  | .lambda inits aux body, env, n, h => by
    obtain h | h | h : refers n (looseAll scope inits) ∨ refers n (looseAll scope aux) ∨
        refers n (looseAll scope body) := by simpa [loose] using h
    all_goals simp [exits, mem_exitsAll _ _ h]
  | .doLoop site inits rest, env, n, h => by
    obtain ⟨h, hne⟩ | ⟨h, hne⟩ : (refers n (looseAll scope inits) ∧ scope.block ≠ some n) ∨
        (refers n (looseAll scope rest) ∧ Name.nil ≠ n) := by simpa [loose] using h
    · have hmem := mem_exitsAll inits (scope.env env site) h
      rw [scope.env_of_ne hne] at hmem
      simp [exits, hmem]
    · have hmem := mem_exitsAll rest (env.bind .nil site) h
      rw [Env.bind, if_neg (Ne.symm hne)] at hmem
      simp [exits, hmem]
  | .dolist site spec body, env, n, h => by
    obtain ⟨h, hne⟩ | ⟨h, hne⟩ : (refers n (looseAll scope spec) ∧ Name.nil ≠ n) ∨
        (refers n (looseAll scope body) ∧ Name.nil ≠ n) := by simpa [loose] using h
    all_goals
      have hmem := mem_exitsAll _ (env.bind .nil site) h
      rw [Env.bind, if_neg (Ne.symm hne)] at hmem
      simp [exits, hmem]
  | .localFunction site name inits body, env, n, h => by
    obtain h | ⟨h, hne⟩ : refers n (looseAll scope inits) ∨
        (refers n (looseAll scope body) ∧ name.blockName ≠ n) := by simpa [loose] using h
    · simp [exits, mem_exitsAll inits _ h]
    · have hmem := mem_exitsAll body (env.bind name.blockName site) h
      rw [Env.bind, if_neg (Ne.symm hne)] at hmem
      simp [exits, hmem]

theorem mem_exitsAll : ∀ (forms : List Form) (env : Env) {n : Name},
    refers n (looseAll scope forms) → env n ∈ exitsAll scope env forms
  | [], _, _, h => by simp [looseAll, refers] at h
  | form :: forms, env, n, h => by
    obtain h | h : refers n (loose scope form) ∨ refers n (looseAll scope forms) := by
      simpa [looseAll] using h
    · simp [exitsAll, mem_exits form _ h]
    · simp [exitsAll, mem_exitsAll forms _ h]

end

theorem Env.eq_of_bind {env : Env} {name n : Name} {site s : ℕ}
    (h : env.bind name site n = some s) : s = site ∨ env n = some s := by
  rw [Env.bind] at h
  split at h
  · exact .inl (Option.some.inj h).symm
  · exact .inr h

theorem DoScope.eq_of_env {env : Env} {n : Name} {site s : ℕ}
    (h : scope.env env site n = some s) : s = site ∨ env n = some s := by
  cases scope with
  | entire => exact Env.eq_of_bind h
  | afterInits => exact .inr h

/-- The blocks that exist in some environment or in some list of forms. -/
def Known (env : Env) (inner : List ℕ) (s : ℕ) : Prop := s ∈ inner ∨ ∃ n, env n = some s

variable {scope}

theorem Known.mono {env : Env} {inner inner' : List ℕ} {s : ℕ} (h : Known env inner s)
    (hsub : inner ⊆ inner') : Known env inner' s := h.imp_left fun hs => hsub hs

theorem Known.of_bind {env : Env} {name : Name} {site : ℕ} {inner : List ℕ} {s : ℕ}
    (h : Known (env.bind name site) inner s) : Known env (site :: inner) s := by
  obtain h | ⟨n, h⟩ := h
  · exact .inl (List.mem_cons_of_mem _ h)
  · obtain rfl | h := Env.eq_of_bind h
    · exact .inl (List.mem_cons_self ..)
    · exact .inr ⟨n, h⟩

theorem Known.of_env {env : Env} {site : ℕ} {inner : List ℕ} {s : ℕ}
    (h : Known (scope.env env site) inner s) : Known env (site :: inner) s := by
  obtain h | ⟨n, h⟩ := h
  · exact .inl (List.mem_cons_of_mem _ h)
  · obtain rfl | h := scope.eq_of_env h
    · exact .inl (List.mem_cons_self ..)
    · exact .inr ⟨n, h⟩

variable (scope)

mutual

/-- A `RETURN-FROM` returns from a visible block or from one inside the form. -/
theorem known_of_mem_exits : ∀ (form : Form) {env : Env} {s : ℕ},
    some s ∈ exits scope env form → Known env (sites form) s
  | .atom _, _, _, h => by simp [exits] at h
  | .call _ args, _, _, h => known_of_mem_exitsAll args h
  | .car args, _, _, h => known_of_mem_exitsAll args h
  | .block _ _ body, _, _, h => (known_of_mem_exitsAll body h).of_bind
  | .returnFrom name value, env, s, h => by
    obtain h | h := List.mem_cons.1 h
    · exact .inr ⟨name, h.symm⟩
    · exact known_of_mem_exits value h
  | .lambda inits aux body, env, s, h => by
    obtain h | h | h : some s ∈ exitsAll scope env inits ∨ some s ∈ exitsAll scope env aux ∨
        some s ∈ exitsAll scope env body := by simpa [exits] using h
    · exact (known_of_mem_exitsAll inits h).mono (by simp [sites])
    · exact (known_of_mem_exitsAll aux h).mono (by simp [sites])
    · exact (known_of_mem_exitsAll body h).mono (by simp [sites])
  | .doLoop site inits rest, env, s, h => by
    obtain h | h := List.mem_append.1 h
    · exact (known_of_mem_exitsAll inits h).of_env.mono (by simp [sites])
    · exact (known_of_mem_exitsAll rest h).of_bind.mono (by simp [sites])
  | .dolist site spec body, env, s, h => by
    obtain h | h := List.mem_append.1 h
    · exact (known_of_mem_exitsAll spec h).of_bind.mono (by simp [sites])
    · exact (known_of_mem_exitsAll body h).of_bind.mono (by simp [sites])
  | .localFunction site name inits body, env, s, h => by
    obtain h | h := List.mem_append.1 h
    · exact (known_of_mem_exitsAll inits h).mono fun x hx => by simp [sites, hx]
    · exact (known_of_mem_exitsAll body h).of_bind.mono (by simp [sites])

theorem known_of_mem_exitsAll : ∀ (forms : List Form) {env : Env} {s : ℕ},
    some s ∈ exitsAll scope env forms → Known env (sitesAll forms) s
  | [], _, _, h => by simp [exitsAll] at h
  | form :: forms, env, s, h => by
    obtain h | h := List.mem_append.1 h
    · exact (known_of_mem_exits form h).mono (by simp [sitesAll])
    · exact (known_of_mem_exitsAll forms h).mono (by simp [sitesAll])

end

mutual

theorem mem_exits_of_stranded : ∀ (form : Form) (env : Env) {s : ℕ},
    s ∈ stranded scope form → some s ∈ exits scope env form
  | .atom _, _, _, h => by simp [stranded] at h
  | .call _ args, _, _, h => mem_exitsAll_of_stranded args _ h
  | .car [arg], _, _, h => by simp [exits, exitsAll, mem_exits_of_stranded arg _ h]
  | .car [], _, _, h => by simp [stranded] at h
  | .car (_ :: _ :: _), _, _, h => by simp [stranded] at h
  | .block site name body, env, s, h => by
    obtain ⟨hrefers, rfl⟩ | h : (refers name (looseAll scope body) ∧ s = site) ∨
        s ∈ strandedAll scope body := by
      rw [stranded] at h
      split at h
      · simp_all
      · exact .inr h
    · have hmem := mem_exitsAll scope body (env.bind name s) hrefers
      rwa [Env.bind, if_pos rfl] at hmem
    · exact mem_exitsAll_of_stranded body _ h
  | .returnFrom name value, env, s, h => List.mem_cons_of_mem _ (mem_exits_of_stranded value _ h)
  | .lambda inits aux body, env, s, h => by
    obtain h | h := List.mem_append.1 h
    all_goals simp [exits, mem_exitsAll_of_stranded _ _ h]
  | .doLoop site inits rest, env, s, h => by
    obtain h | h := List.mem_append.1 h
    all_goals simp [exits, mem_exitsAll_of_stranded _ _ h]
  | .dolist site spec body, env, s, h => by
    obtain h | h := List.mem_append.1 h
    all_goals simp [exits, mem_exitsAll_of_stranded _ _ h]
  | .localFunction site name inits body, env, s, h => by
    simp [exits, mem_exitsAll_of_stranded body _ h]

theorem mem_exitsAll_of_stranded : ∀ (forms : List Form) (env : Env) {s : ℕ},
    s ∈ strandedAll scope forms → some s ∈ exitsAll scope env forms
  | [], _, _, h => by simp [strandedAll] at h
  | form :: forms, env, s, h => by
    obtain h | h := List.mem_append.1 h
    · simp [exitsAll, mem_exits_of_stranded form _ h]
    · simp [exitsAll, mem_exitsAll_of_stranded forms _ h]

end

/-! ## What the walk keeps -/

/-- Of the sites `before`, the walk keeps `after` and drops those in `dropped`. -/
structure Gone (before after dropped : List ℕ) : Prop where
  sublist : after.Sublist before
  subset : dropped ⊆ before
  not_mem : before.Nodup → ∀ s ∈ dropped, s ∉ after

namespace Gone

variable {before before' after after' dropped dropped' : List ℕ} {s : ℕ}

theorem refl (before : List ℕ) : Gone before before [] := ⟨.refl _, by simp, by simp⟩

theorem append (h : Gone before after dropped) (h' : Gone before' after' dropped') :
    Gone (before ++ before') (after ++ after') (dropped ++ dropped') := by
  refine ⟨h.sublist.append h'.sublist, List.append_subset.2 ⟨?_, ?_⟩, fun hnodup => ?_⟩
  · exact List.subset_append_of_subset_left _ h.subset
  · exact List.subset_append_of_subset_right _ h'.subset
  · obtain ⟨hn, hn', hdisjoint⟩ := List.nodup_append.1 hnodup
    intro s hs hmem
    obtain hs | hs := List.mem_append.1 hs <;> obtain hmem | hmem := List.mem_append.1 hmem
    · exact h.not_mem hn s hs hmem
    · exact hdisjoint s (h.subset hs) s (h'.sublist.subset hmem) rfl
    · exact hdisjoint s (h.sublist.subset hmem) s (h'.subset hs) rfl
    · exact h'.not_mem hn' s hs hmem

/-- The form at `s` is dropped, and it counts as dropped when `S` says so. -/
theorem drop (h : Gone before after dropped) (s : ℕ) (S : List ℕ) (hS : S ⊆ [s]) :
    Gone (s :: before) after (S ++ dropped) := by
  refine ⟨h.sublist.cons s, List.append_subset.2 ⟨?_, ?_⟩, fun hnodup => ?_⟩
  · exact List.Subset.trans hS (by simp)
  · exact List.subset_cons_of_subset _ h.subset
  · obtain ⟨hs, hn⟩ := List.nodup_cons.1 hnodup
    intro t ht hmem
    obtain ht | ht := List.mem_append.1 ht
    · obtain rfl := List.mem_singleton.1 (hS ht)
      exact hs (h.sublist.subset hmem)
    · exact h.not_mem hn t ht hmem

theorem cons (h : Gone before after dropped) (s : ℕ) : Gone (s :: before) (s :: after) dropped :=
  (refl [s]).append h

end Gone

structure Walked (form form' : Form) : Prop where
  gone : Gone (sites form) (sites form') (stranded scope form)
  exits_eq : stranded scope form = [] → ∀ env, exits scope env form' = exits scope env form

structure WalkedAll (forms forms' : List Form) : Prop where
  gone : Gone (sitesAll forms) (sitesAll forms') (strandedAll scope forms)
  exits_eq : strandedAll scope forms = [] →
    ∀ env, exitsAll scope env forms' = exitsAll scope env forms

theorem sitesAll_append (forms forms' : List Form) :
    sitesAll (forms ++ forms') = sitesAll forms ++ sitesAll forms' := by
  induction forms with
  | nil => rfl
  | cons form forms ih => simp [sitesAll, ih]

theorem exitsAll_append (env : Env) (forms forms' : List Form) :
    exitsAll scope env (forms ++ forms') =
      exitsAll scope env forms ++ exitsAll scope env forms' := by
  induction forms with
  | nil => rfl
  | cons form forms ih => simp [exitsAll, ih]

theorem sites_progn (body : List Form) : sites (progn body) = sitesAll body := by
  match body with
  | [] => rfl
  | [form] => simp [progn, sitesAll]
  | a :: b :: body => rfl

theorem exits_progn (env : Env) (body : List Form) :
    exits scope env (progn body) = exitsAll scope env body := by
  match body with
  | [] => rfl
  | [form] => simp [progn, exitsAll]
  | a :: b :: body => rfl

theorem sites_rewriteAuxVars (aux body : List Form) :
    sitesAll (rewriteAuxVars aux body) = sitesAll aux ++ sitesAll body := by
  cases aux with
  | nil => rfl
  | cons a aux => simp [rewriteAuxVars, sites, sitesAll, sitesAll_append]

theorem exits_rewriteAuxVars (env : Env) (aux body : List Form) :
    exitsAll scope env (rewriteAuxVars aux body) =
      exitsAll scope env aux ++ exitsAll scope env body := by
  cases aux with
  | nil => rfl
  | cons a aux => simp [rewriteAuxVars, exits, exitsAll, exitsAll_append]

theorem sites_precompileCar (arg : Form) : sites (precompileCar arg) = sites arg := by
  unfold precompileCar
  split
  · rfl
  · simp [sites, sitesAll]

theorem exits_precompileCar (env : Env) (arg : Form) :
    exits scope env (precompileCar arg) = exits scope env arg := by
  unfold precompileCar
  split
  · rfl
  · simp [exits, exitsAll]

variable {scope}

theorem Walked.car {arg arg' : Form} (h : Walked scope arg arg') :
    Walked scope (.car [arg]) (precompileCar arg') := by
  constructor
  · simpa [sites_precompileCar, sites, sitesAll, stranded] using h.gone
  · intro hstranded env
    simpa [exits_precompileCar, exits, exitsAll] using h.exits_eq hstranded env

theorem WalkedAll.call {args args' : List Form} (h : WalkedAll scope args args') (op : String) :
    Walked scope (.call op args) (.call op args') := ⟨h.gone, h.exits_eq⟩

theorem WalkedAll.block {body body' : List Form} (h : WalkedAll scope body body') (site : ℕ)
    (name : Name) : Walked scope (.block site name body)
      (if marks name (looseAll scope body) then .block site name body' else progn body') := by
  by_cases hmarks : marks name (looseAll scope body)
  · rw [if_pos hmarks]
    constructor
    · simpa [stranded, hmarks, sites] using h.gone.cons site
    · intro hstranded env
      exact h.exits_eq (by simpa [stranded, hmarks] using hstranded) (env.bind name site)
  · rw [if_neg hmarks]
    constructor
    · rw [sites_progn]
      refine h.gone.drop site _ ?_
      split <;> simp
    · intro hstranded env
      obtain ⟨hrefers, hbody⟩ : refers name (looseAll scope body) = false ∧
          strandedAll scope body = [] := by simpa [stranded, hmarks] using hstranded
      rw [exits_progn, h.exits_eq hbody]
      refine exitsAll_congr scope body _ _ fun n hn => ?_
      have hne : n ≠ name := by
        rintro rfl
        simp [hrefers] at hn
      rw [Env.bind, if_neg hne]

theorem WalkedAll.lambda {aux aux' body body' : List Form} (haux : WalkedAll scope aux aux')
    (hbody : WalkedAll scope body body') (inits : List Form) :
    Walked scope (.lambda inits aux body) (.lambda inits [] (rewriteAuxVars aux' body')) := by
  constructor
  · simpa [sites, sitesAll, stranded, sites_rewriteAuxVars] using
      (Gone.refl (sitesAll inits)).append (haux.gone.append hbody.gone)
  · intro hstranded env
    obtain ⟨ha, hb⟩ := List.append_eq_nil_iff.1 hstranded
    simp [exits, exitsAll, exits_rewriteAuxVars, haux.exits_eq ha, hbody.exits_eq hb]

theorem WalkedAll.doLoop {inits inits' rest rest' : List Form}
    (hinits : WalkedAll scope inits inits') (hrest : WalkedAll scope rest rest') (site : ℕ) :
    Walked scope (.doLoop site inits rest) (.doLoop site inits' rest') := by
  constructor
  · exact (hinits.gone.append hrest.gone).cons site
  · intro hstranded env
    obtain ⟨hi, hr⟩ := List.append_eq_nil_iff.1 hstranded
    simp [exits, hinits.exits_eq hi, hrest.exits_eq hr]

theorem WalkedAll.dolist {spec spec' body body' : List Form} (hspec : WalkedAll scope spec spec')
    (hbody : WalkedAll scope body body') (site : ℕ) :
    Walked scope (.dolist site spec body) (.dolist site spec' body') := by
  constructor
  · exact (hspec.gone.append hbody.gone).cons site
  · intro hstranded env
    obtain ⟨hs, hb⟩ := List.append_eq_nil_iff.1 hstranded
    simp [exits, hspec.exits_eq hs, hbody.exits_eq hb]

theorem WalkedAll.localFunction {body body' : List Form} (h : WalkedAll scope body body')
    (site : ℕ) (name : Name) (inits : List Form) :
    Walked scope (.localFunction site name inits body) (.localFunction site name inits body') := by
  constructor
  · exact ((Gone.refl (sitesAll inits)).append h.gone).cons site
  · intro hstranded env
    simp [exits, h.exits_eq hstranded]

theorem WalkedAll.cons {form form' : Form} {forms forms' : List Form} (h : Walked scope form form')
    (hforms : WalkedAll scope forms forms') :
    WalkedAll scope (form :: forms) (form' :: forms') := by
  constructor
  · exact h.gone.append hforms.gone
  · intro hstranded env
    obtain ⟨hf, hfs⟩ := List.append_eq_nil_iff.1 hstranded
    simp [exitsAll, h.exits_eq hf, hforms.exits_eq hfs]

/-! ## The walk -/

variable (scope)

mutual

theorem precompile1_ensures : ∀ form : Form, Ensures (precompile1 form)
    (fun n => marks n (loose scope form)) (Walked scope form)
  | .atom text => ensures_pure ⟨.refl _, fun _ _ => rfl⟩
  | .call op args => by
    rw [precompile1]
    refine ((precompileAll_ensures args).bind fun args' h =>
      ensures_pure (h.call op)).mono ?_ fun _ => id
    simp [loose]
  | .car [arg] => by
    rw [precompile1]
    refine ((precompile1_ensures arg).bind fun arg' h =>
      ensures_pure (P := Walked scope (.car [arg])) h.car).mono ?_ fun _ => id
    simp [loose]
  | .car [] => by
    refine (ensures_pure (P := Walked scope (.car []))
      ⟨.refl _, fun _ _ => rfl⟩).mono ?_ fun _ => id
    simp [loose]
  | .car (a :: b :: args) => by
    refine (ensures_pure (P := Walked scope (.car (a :: b :: args)))
      ⟨.refl _, fun _ _ => rfl⟩).mono ?_ fun _ => id
    simp [loose]
  | .block site name body => by
    rw [precompile1, precompileBlock]
    refine (((precompileAll_ensures body).withEntry name).bind
      (Q := Walked scope (.block site name body)) (q := fun _ => false) ?_).mono ?_ fun _ => id
    · rintro ⟨body', used⟩ ⟨h, rfl⟩
      exact ensures_pure (h.block site name)
    · simp [loose]
  | .returnFrom name value => by
    rw [precompile1]
    refine (ensures_returnFrom (precompile1_ensures value) name).mono ?_ ?_
    · simp [loose]
    · rintro _ ⟨value', rfl, h⟩
      exact ⟨h.gone, fun hs env => by rw [exits, exits, h.exits_eq hs]⟩
  | .lambda inits aux body => by
    rw [precompile1, precompileLambda]
    refine ((precompileAll_ensures aux).bind fun aux' haux =>
      (precompileAll_ensures body).bind fun body' hbody =>
        ensures_pure (P := Walked scope (.lambda inits aux body))
          (haux.lambda hbody inits)).mono ?_ fun _ => id
    simp [loose]
  | .doLoop site inits rest => by
    rw [precompile1]
    refine ((((precompileAll_ensures inits).bind fun inits' hinits =>
      (precompileAll_ensures rest).bind fun rest' hrest =>
        ensures_pure (P := fun r : List Form × List Form =>
          WalkedAll scope inits r.1 ∧ WalkedAll scope rest r.2)
          ⟨hinits, hrest⟩).withEntry .nil).bind (Q := Walked scope (.doLoop site inits rest))
            (q := fun _ => false) ?_).mono ?_ fun _ => id
    · rintro ⟨⟨inits', rest'⟩, used⟩ ⟨⟨hinits, hrest⟩, -⟩
      exact ensures_pure (hinits.doLoop hrest site)
    · simp [loose, Bool.and_or_distrib_right]
  | .dolist site spec body => by
    rw [precompile1]
    refine ((precompileAll_ensures spec).bind (Q := Walked scope (.dolist site spec body))
      (q := fun n => marks n (looseAll scope body) && !(Name.nil == n)) fun spec' hspec =>
        (((precompileAll_ensures body).withEntry .nil).bind (q := fun _ => false) ?_).mono
          ?_ fun _ => id).mono ?_ fun _ => id
    · rintro ⟨body', used⟩ ⟨hbody, -⟩
      exact ensures_pure (hspec.dolist hbody site)
    · simp
    · simp [loose]
  | .localFunction site name inits body => by
    rw [precompile1, precompileLocalFunctionDef]
    refine ((precompileAll_ensures inits).bind
      (Q := Walked scope (.localFunction site name inits body))
      (q := fun n => marks n (looseAll scope body) && !(name == n)) fun _ _ =>
        (((precompileAll_ensures body).withEntry name).bind (q := fun _ => false) ?_).mono
          ?_ fun _ => id).mono ?_ fun _ => id
    · rintro ⟨body', used⟩ ⟨hbody, -⟩
      exact ensures_pure (hbody.localFunction site name inits)
    · simp
    · simp [loose]

theorem precompileAll_ensures : ∀ forms : List Form, Ensures (precompileAll forms)
    (fun n => marks n (looseAll scope forms)) (WalkedAll scope forms)
  | [] => ensures_pure ⟨.refl _, fun _ _ => rfl⟩
  | form :: forms => by
    rw [precompileAll]
    refine ((precompile1_ensures form).bind fun form' h =>
      (precompileAll_ensures forms).bind fun forms' hforms =>
        ensures_pure (P := WalkedAll scope (form :: forms)) (.cons h hforms)).mono ?_ fun _ => id
    simp [looseAll]

end

theorem walked_precompileForm {form form' : Form} (h : precompileForm form = .ok form') :
    Walked scope form form' := by
  cases hwalk : precompile1 form [] with
  | error e => simp [precompileForm, hwalk, bind, Except.bind] at h
  | ok r =>
    obtain rfl : r.1 = form' := by
      simpa [precompileForm, hwalk, bind, Except.bind, pure, Except.pure] using h
    exact (precompile1_ensures scope form _ _ _ hwalk).2

/-- The precompiled form has the blocks of the form exactly when no block is only referred to where
the walk does not look: in the initforms of a lambda list, in the arguments of a `CAR` with a wrong
number of them, or, when the block of a `DO` does not surround its initforms, there. -/
theorem precompileForm_keeps_iff (source : Source) {form' : Form}
    (h : precompileForm source.form = .ok form') :
    KeepsBlocks scope source.form form' ↔ stranded scope source.form = [] := by
  have hwalked := walked_precompileForm scope h
  constructor
  · rintro ⟨hmem, -⟩
    refine List.eq_nil_iff_forall_not_mem.2 fun s hs => ?_
    exact hwalked.gone.not_mem source.nodup s hs
      (hmem s (mem_exits_of_stranded scope source.form _ hs))
  · intro hstranded
    have hexits := hwalked.exits_eq hstranded fun _ => none
    refine ⟨fun s hs => ?_, hexits⟩
    rw [← hexits] at hs
    exact (known_of_mem_exits scope form' hs).elim id (by simp)

/-- `(block foo (funcall (lambda (&optional (x (return-from foo 1))) x)))` -/
def returnInInitform : Source where
  form := .block 0 (.symbol "FOO")
    [.call "FUNCALL" [.lambda [.returnFrom (.symbol "FOO") (.atom "1")] [] [.atom "X"]]]
  nodup := by decide

/-- `(block foo (funcall (lambda (&optional (x (return-from foo 1))) (return-from foo x))))` -/
def returnInBody : Source where
  form := .block 0 (.symbol "FOO")
    [.call "FUNCALL" [.lambda [.returnFrom (.symbol "FOO") (.atom "1")] []
      [.returnFrom (.symbol "FOO") (.atom "X")]]]
  nodup := by decide

theorem precompileForm_keeps_returnInBody :
    KeepsBlocks .entire returnInBody.form returnInBody.form :=
  (precompileForm_keeps_iff .entire returnInBody (by rfl)).2 (by decide)

/-- The block is gone, and its `RETURN-FROM` signals a missing block. -/
theorem not_keeps_returnInInitform :
    precompileForm returnInInitform.form = .ok (.call "FUNCALL"
        [.lambda [.returnFrom (.symbol "FOO") (.atom "1")] [] [.atom "X"]]) ∧
      ¬ KeepsBlocks .entire returnInInitform.form (.call "FUNCALL"
        [.lambda [.returnFrom (.symbol "FOO") (.atom "1")] [] [.atom "X"]]) := by
  refine ⟨by rfl, fun h => ?_⟩
  exact absurd (h.1 0 (by decide)) (by decide)

end Xcl.Blocks
