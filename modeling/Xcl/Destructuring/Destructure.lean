import Xcl.Destructuring.Parts

/-!
# Destructuring by macro lambda lists

* **`run_eq_bind`**: the code binds, and ends in an error, as the language prescribes.
-/

namespace Xcl.Destructuring

-- The equations of these functions are made once, before the lemmas that use them.
section
attribute [local simp] KeyPart.Early KeyPart.suppliedVars KeyPart.uses Keys.Early Keys.keywords
  LambdaList.Early Optionals.Early Required.Early Tail.Early Target.Early Target.suppliedVars
  Target.uses eval keywordSuppliedP keywordValue lookupKeyword
end

/-! ## Keyword lists -/

/-- `NIL` does not stand for a keyword. -/
def NoNilKeyword : Value → Prop
  | .cons k (.cons _ rest) => k ≠ .nil ∧ NoNilKeyword rest
  | _ => True

section
attribute [local simp] NoNilKeyword
end

section Keywords

variable {keys : List String} {allow : Bool} {keyword : String}

theorem keywordsValid_cons (k v rest : Value) :
    keywordsValid keys allow (.cons k (.cons v rest)) =
      ((k = .atom "ALLOW-OTHER-KEYS" || k ∈ keys.map Value.atom || allow) &&
        keywordsValid keys allow rest) := rfl

theorem keywordValue_cons (k v rest : Value) :
    keywordValue keyword (.cons k (.cons v rest)) =
      if k = .atom keyword then some v else keywordValue keyword rest := rfl

theorem verifyLoop_cons (k v rest unknown : Value) :
    verifyLoop keys (.cons k (.cons v rest)) unknown =
      if k = .atom "ALLOW-OTHER-KEYS" ∨ k ∈ keys.map Value.atom then verifyLoop keys rest unknown
      else verifyLoop keys rest k := rfl

theorem lookupKeyword_of_valid : ∀ {list : Value}, keywordsValid keys allow list = true →
    lookupKeyword keyword list = some ((keywordValue keyword list).getD .nil)
  | .nil, _ => rfl
  | .cons k (.cons v rest), h => by
    rw [keywordsValid_cons, Bool.and_eq_true] at h
    rw [lookupKeyword, keywordValue_cons]
    split
    · rfl
    · exact lookupKeyword_of_valid h.2

theorem keywordSuppliedP_of_valid : ∀ {list : Value}, keywordsValid keys allow list = true →
    keywordSuppliedP keyword list = some (keywordValue keyword list).isSome
  | .nil, _ => rfl
  | .cons k (.cons v rest), h => by
    rw [keywordsValid_cons, Bool.and_eq_true] at h
    rw [keywordSuppliedP, keywordValue_cons]
    split
    · rfl
    · exact keywordSuppliedP_of_valid h.2

theorem verifyLoop_of_valid (unknown : Value) : ∀ {list : Value},
    keywordsValid keys allow list = true → ∃ last, verifyLoop keys list unknown = some last ∧
      (allow = false → last = unknown)
  | .nil, _ => ⟨unknown, rfl, fun _ => rfl⟩
  | .cons k (.cons v rest), h => by
    rw [keywordsValid_cons, Bool.and_eq_true] at h
    rw [verifyLoop_cons]
    split
    · exact verifyLoop_of_valid unknown h.2
    · rename_i hunknown
      obtain ⟨last, hlast, -⟩ := verifyLoop_of_valid k h.2
      refine ⟨last, hlast, fun hallow => ?_⟩
      have hknown := h.1
      rw [hallow, Bool.or_false, Bool.or_eq_true, decide_eq_true_iff, decide_eq_true_iff] at hknown
      exact absurd hknown hunknown

theorem valid_of_verifyLoop : ∀ {list unknown last : Value},
    verifyLoop keys list unknown = some last → keywordsValid keys true list = true
  | .nil, _, _, _ => rfl
  | .cons k (.cons v rest), unknown, last, h => by
    rw [verifyLoop_cons] at h
    rw [keywordsValid_cons, Bool.or_true, Bool.true_and]
    split at h
    · exact valid_of_verifyLoop h
    · exact valid_of_verifyLoop h

theorem keywordsValid_mono : ∀ {list : Value}, keywordsValid keys false list = true →
    keywordsValid keys allow list = true
  | .nil, _ => rfl
  | .cons k (.cons v rest), h => by
    rw [keywordsValid_cons, Bool.and_eq_true, Bool.or_false] at h
    rw [keywordsValid_cons, h.1, Bool.true_or, Bool.true_and]
    exact keywordsValid_mono h.2

/-- Without `NIL` among the keywords, an unknown keyword is noticed. -/
theorem valid_of_verifyLoop_nil : ∀ {list unknown : Value}, NoNilKeyword list →
    verifyLoop keys list unknown = some .nil →
    unknown = .nil ∧ keywordsValid keys false list = true
  | .nil, unknown, _, h => ⟨Option.some.inj h, rfl⟩
  | .cons k (.cons v rest), unknown, hnil, h => by
    rw [verifyLoop_cons] at h
    split at h
    · rename_i hknown
      obtain ⟨hunknown, hvalid⟩ := valid_of_verifyLoop_nil hnil.2 h
      refine ⟨hunknown, ?_⟩
      rw [keywordsValid_cons, hvalid, Bool.or_false, Bool.and_true, Bool.or_eq_true,
        decide_eq_true_iff, decide_eq_true_iff]
      exact hknown
    · exact absurd (valid_of_verifyLoop_nil hnil.2 h).1 hnil.1

theorem verifyLoop_reverse (keys : List String) : ∀ list unknown : Value,
    verifyLoop keys.reverse list unknown = verifyLoop keys list unknown
  | .nil, _ => rfl
  | .cons k (.cons v rest), unknown => by
    simp only [verifyLoop_cons, List.map_reverse, List.mem_reverse, verifyLoop_reverse keys rest]
  | .cons _ .nil, _ => rfl
  | .cons _ .t, _ => rfl
  | .cons _ (.atom _), _ => rfl
  | .t, _ => rfl
  | .atom _, _ => rfl

theorem verifyKeywords_reverse (list : Value) (keys : List String) (allow : Bool) :
    verifyKeywords list keys.reverse allow = verifyKeywords list keys allow := by
  unfold verifyKeywords
  rw [verifyLoop_reverse]

theorem verifyKeywords_of_keywordsValid {list : Value}
    (h : keywordsValid keys (allow || othersAllowed list) list = true) :
    verifyKeywords list keys allow = true := by
  obtain ⟨last, hlast, hnone⟩ := verifyLoop_of_valid .nil h
  unfold verifyKeywords
  rw [hlast, lookupKeyword_of_valid h]
  simp only [Bool.or_eq_true, decide_eq_true_iff]
  cases hallow : allow with
  | true => exact Or.inl (Or.inr rfl)
  | false =>
    rw [hallow, Bool.false_or] at hnone
    unfold othersAllowed at hnone
    cases hvalue : keywordValue "ALLOW-OTHER-KEYS" list with
    | none =>
      rw [hvalue] at hnone
      exact Or.inl (Or.inl (hnone rfl))
    | some v =>
      rw [hvalue] at hnone
      by_cases hv : v = .nil
      · exact Or.inl (Or.inl (hnone (by simp [hv])))
      · exact Or.inr hv

/-- What `verify-keywords` accepts is valid, if `NIL` is not among the keywords. -/
theorem keywordsValid_of_verifyKeywords {list : Value} (hnil : NoNilKeyword list)
    (h : verifyKeywords list keys allow = true) :
    keywordsValid keys (allow || othersAllowed list) list = true := by
  unfold verifyKeywords at h
  cases hloop : verifyLoop keys list .nil with
  | none =>
    rw [hloop] at h
    cases h
  | some last =>
    have hvalid : keywordsValid keys true list = true := valid_of_verifyLoop hloop
    rw [hloop, lookupKeyword_of_valid hvalid] at h
    simp only [Bool.or_eq_true, decide_eq_true_iff] at h
    rcases h with (hlast | hallow) | hothers
    · rw [hlast] at hloop
      exact keywordsValid_mono (valid_of_verifyLoop_nil hnil hloop).2
    · rw [hallow, Bool.true_or]
      exact hvalid
    · have hallowed : othersAllowed list = true := by
        unfold othersAllowed
        cases hvalue : keywordValue "ALLOW-OTHER-KEYS" list with
        | none =>
          rw [hvalue] at hothers
          exact absurd rfl hothers
        | some v =>
          rw [hvalue] at hothers
          exact decide_eq_true hothers
      rw [hallowed, Bool.or_true]
      exact hvalid

end Keywords

/-! ## Arguments that are noticed -/

mutual

/-- At every list that is reached, the tests of the code are enough. -/
def OkTarget : Target → Value → Prop
  | .symbol _, _ => True
  | .nested list, v => listp v = true → OkLambdaList list v v

def OkDefault : Target → Init → Prop
  | .symbol _, _ => True
  | .nested list, .absent => OkLambdaList list .nil .nil
  | .nested list, .constant v => listp v = true → OkLambdaList list v v
  | .nested _, .form _ _ => False

def OkLambdaList : LambdaList → Value → Value → Prop
  | .whole target rest, whole, args => OkTarget target whole ∧ OkRequired rest args
  | .plain rest, _, args => OkRequired rest args

/-- With a `&REST` or `&KEY`, no required argument is missing. -/
def OkRequired : Required → Value → Prop
  | .cons target rest, .cons a args => OkTarget target a ∧ OkRequired rest args
  | .cons _ rest, .nil => rest.restp = false
  | .cons _ _, _ => True
  | .optionals rest, args => OkOptionals rest args

def OkOptionals : Optionals → Value → Prop
  | .var _ rest, .nil => OkOptionals rest .nil
  | .var _ rest, .cons _ args => OkOptionals rest args
  | .var _ _, _ => True
  | .cons target init _ rest, .nil => OkDefault target init ∧ OkOptionals rest .nil
  | .cons target _ _ rest, .cons a args => OkTarget target a ∧ OkOptionals rest args
  | .cons _ _ _ _, _ => True
  | .tail rest, args => OkTail rest args

def OkTail : Tail → Value → Prop
  | .dotted _, _ => True
  | .rest target keys, args => OkTarget target args ∧ OkKeyPart keys args
  | .noRest keys, args => OkKeyPart keys args

/-- The keyword list is valid, or there is a keyword parameter and no keyword is `NIL`. -/
def OkKeyPart : KeyPart → Value → Prop
  | .key keys, args =>
    (keywordsValid keys.keywords (keys.allowOtherKeys || othersAllowed args) args = true ∨
      (keys.keywords ≠ [] ∧ NoNilKeyword args)) ∧ OkKeys keys args
  | .noKey _, _ => True

def OkKeys : Keys → Value → Prop
  | .var _ _ rest, args => OkKeys rest args
  | .cons keyword target init _ rest, args =>
    (match keywordValue keyword args with
      | some v => OkTarget target v
      | none => OkDefault target init) ∧ OkKeys rest args
  | .done _ _, _ => True

end

section
attribute [local simp] OkDefault OkKeyPart OkKeys OkLambdaList OkOptionals OkRequired OkTail
  OkTarget
end

/-- The condition on a parameter that may be missing. -/
def OkGiven (given : Option Value) (target : Target) (init : Init) : Prop :=
  match given with
  | some v => OkTarget target v
  | none => OkDefault target init

section Run

variable {σ : Type} {I : Interp σ} {n : ℕ} {G : ℕ → Value}

/-! ## Single bindings -/

theorem bindTarget_of_listp {v : Value} (h : listp v = true) (list : LambdaList) :
    bindTarget I (.nested list) v = bindLambdaList I list v v := by
  rw [bindTarget]
  funext b
  rw [if_pos h]

theorem bindTarget_of_not_listp {v : Value} (h : listp v = false) (list : LambdaList) :
    bindTarget I (.nested list) v = fun _ => none := by
  rw [bindTarget]
  funext b
  rw [if_neg (Bool.eq_false_iff.mp h)]

/-- The code has a value, which does not depend on the user's variables. -/
def Stands (I : Interp σ) (n : ℕ) (G : ℕ → Value) (code : Code) (v : Value) : Prop :=
  ∀ U G' s, SameBelow n G G' → eval I U G' code s = some (v, s)

/-- The code is an error. -/
def Breaks (I : Interp σ) (n : ℕ) (G : ℕ → Value) (code : Code) : Prop :=
  ∀ U G' s, SameBelow n G G' → eval I U G' code s = none

def Leads (n : ℕ) (G : ℕ → Value) (path : Path) (v : Value) : Prop :=
  path.base < n ∧ path.value G = some v

theorem Leads.value {path : Path} {v : Value} (h : Leads n G path v) {G' : ℕ → Value}
    (hG' : SameBelow n G G') : path.value G' = some v := by
  rw [Path.value_congr (hG' path.base h.1)]
  exact h.2

theorem Leads.mono {path : Path} {v : Value} (h : Leads n G path v) {m : ℕ} {G' : ℕ → Value}
    (hG' : SameBelow n G G') (hm : n ≤ m) : Leads m G' path v :=
  ⟨h.1.trans_le hm, h.value hG'⟩

theorem Leads.cdr {path : Path} {v d : Value} (h : Leads n G path v) (hd : cdr v = some d) :
    Leads n G path.cdr d := by
  refine ⟨h.1, ?_⟩
  rw [Path.value_cdr, h.2]
  exact hd

theorem Leads.stands_path {path : Path} {v : Value} (h : Leads n G path v) :
    Stands I n G (.path path) v := by
  intro U G' s hG'
  rw [eval, h.value hG']
  rfl

theorem Leads.stands_car {path : Path} {v a : Value} (h : Leads n G path v) (ha : car v = some a) :
    Stands I n G (.car path) a := by
  intro U G' s hG'
  rw [eval, h.value hG', Option.bind_eq_bind, Option.bind_some, ha]
  rfl

theorem Leads.breaks_car {path : Path} {v : Value} (h : Leads n G path v) (ha : car v = none) :
    Breaks I n G (.car path) := by
  intro U G' s hG'
  rw [eval, h.value hG', Option.bind_eq_bind, Option.bind_some, ha]
  rfl

theorem correct_user {code : Code} {v : Value} (h : Stands I n G code v) (name : String) :
    Correct I n G (Output.user n name code) (assign name v) [] := by
  refine Or.inr ⟨[], G, rfl, SameBelow.refl n G, fun U s => rfl, fun G' hG' U s => ?_⟩
  show runUser I G' [(name, code)] (U, s) = some (Function.update U name v, s)
  rw [runUser, h U G' s hG']
  rfl

theorem fails_target {code : Code} (h : Breaks I n G code) (t : Target) :
    Fails I G (parseTarget code n t) t.suppliedVars := by
  intro U s st hrun G' hG' U' s' _
  cases t with
  | symbol name =>
    have hsame : SameBelow n G G' :=
      (runSystem_keeps (above_parseTarget code n (.symbol name)).2 hrun).1.trans hG' le_rfl
    show runUser I G' [(name, code)] (U', s') = none
    rw [runUser, h U' G' s' hsame]
    rfl
  | nested list =>
    exfalso
    rw [parseTarget, Output.append, Output.system, List.singleton_append, runSystem, eval,
      h U G s (SameBelow.refl n G)] at hrun
    cases hrun

/-! ## Parameters that may be missing -/

/-- The supplied-p variable, if it is the user's. -/
def suppliedBindings (flag : Value) (suppliedVar : Option String) : List (String × Value) :=
  suppliedVar.toList.map fun x => (x, flag)

/-- The new variables with the supplied-p variable, if it is one of them. -/
def suppliedSystem (n : ℕ) (flag : Value) (G : ℕ → Value) : Option String → ℕ → Value
  | some _ => G
  | none => Function.update G n flag

section Given

variable {flag : Value} {suppliedVar : Option String}

theorem map_fst_suppliedBindings (flag : Value) (suppliedVar : Option String) :
    (suppliedBindings flag suppliedVar).map Prod.fst = suppliedVar.toList := by
  cases suppliedVar with
  | none => rfl
  | some x => rfl

theorem sameBelow_suppliedSystem (n : ℕ) (flag : Value) (G : ℕ → Value)
    (suppliedVar : Option String) : SameBelow n G (suppliedSystem n flag G suppliedVar) := by
  cases suppliedVar with
  | none => exact sameBelow_update n G flag
  | some x => exact SameBelow.refl n G

theorem le_suppliedNext (n : ℕ) (suppliedVar : Option String) :
    n ≤ suppliedNext n suppliedVar := by
  cases suppliedVar with
  | none => exact Nat.le_succ n
  | some x => exact le_rfl

theorem runSystem_supplied {test : Code} (h : Stands I n G test flag)
    (suppliedVar : Option String) (U : String → Value) (s : σ) :
    runSystem I [(suppliedName n suppliedVar, test)] (U, G, s) =
      some (mix (suppliedBindings flag suppliedVar) U, suppliedSystem n flag G suppliedVar, s) := by
  rw [runSystem, h U G s (SameBelow.refl n G)]
  cases suppliedVar with
  | none => rfl
  | some x => rfl

theorem value_suppliedName {G' : ℕ → Value} {U : String → Value}
    (hG' : SameBelow (suppliedNext n suppliedVar) (suppliedSystem n flag G suppliedVar) G')
    (hU : ∀ x ∈ suppliedVar.toList, U x = flag) :
    (suppliedName n suppliedVar).value U G' = flag := by
  cases suppliedVar with
  | none =>
    show G' n = flag
    rw [hG' n (Nat.lt_succ_self n)]
    exact Function.update_self n flag G
  | some x => exact hU x (List.mem_singleton_self x)

theorem mix_suppliedBindings (flag : Value) (suppliedVar : Option String) (U : String → Value) :
    ∀ x ∈ suppliedVar.toList, mix (suppliedBindings flag suppliedVar) U x = flag := by
  intro x hx
  cases suppliedVar with
  | none => cases hx
  | some y =>
    rw [List.mem_singleton.mp hx]
    exact Function.update_self y flag U

theorem assignSupplied_eq (flag : Value) (suppliedVar : Option String) (b : Bound σ) :
    assignSupplied flag suppliedVar b =
      some (mix (suppliedBindings flag suppliedVar) b.1, b.2) := by
  cases suppliedVar with
  | none => rfl
  | some x => rfl

variable {given : Option Value} {init : Init} {test yes : Code}

theorem evalInit_mix {f : List (String × Value)} (h : ∀ x ∈ f.map Prod.fst, x ∉ init.vars)
    (U : String → Value) (s : σ) : evalInit I (mix f U) s init = evalInit I U s init := by
  induction f generalizing U with
  | nil => rfl
  | cons b f ih =>
    show evalInit I (mix f (Function.update U b.1 b.2)) s init = _
    rw [ih fun x hx => h x (List.mem_cons_of_mem b.1 hx),
      evalInit_update (h b.1 List.mem_cons_self)]

theorem eval_ite_t {U : String → Value} {G' : ℕ → Value} {name : Name} {no : Code}
    (h : name.value U G' = .t) (s : σ) :
    eval I U G' (.ite name yes no) s = eval I U G' yes s := by
  rw [eval, h, if_pos (by decide)]

theorem eval_ite_nil {U : String → Value} {G' : ℕ → Value} {name : Name} {no : Code}
    (h : name.value U G' = .nil) (s : σ) :
    eval I U G' (.ite name yes no) s = eval I U G' no s := by
  rw [eval, h, if_neg (by decide)]

theorem correct_given_symbol (htest : Stands I n G test (.ofBool given.isSome))
    (hyes : ∀ v, given = some v → Stands I n G yes v) {name : String}
    (hearly : Apart (init.vars ++ [name]) suppliedVar.toList) :
    Correct I n G
      ((Output.system (suppliedNext n suppliedVar) (suppliedName n suppliedVar) test).append
        (parseTarget (.ite (suppliedName n suppliedVar) yes (.init init))
          (suppliedNext n suppliedVar) (.symbol name)))
      (bindGiven I given init (bindTarget I (.symbol name)) suppliedVar)
      (suppliedVar.toList ++ (Target.symbol name).suppliedVars) := by
  have hnames := map_fst_suppliedBindings (.ofBool given.isSome) suppliedVar
  have hname : name ∉ (suppliedBindings (.ofBool given.isSome) suppliedVar).map Prod.fst := by
    rw [hnames]
    exact fun h => hearly name h (List.mem_append_right _ (List.mem_singleton_self name))
  refine Or.inr ⟨suppliedBindings (.ofBool given.isSome) suppliedVar,
    suppliedSystem n (.ofBool given.isSome) G suppliedVar, ?_,
    sameBelow_suppliedSystem n _ G suppliedVar, fun U s => ?_, fun G' hG' U s => ?_⟩
  · rw [hnames]
    exact (List.append_nil _).symm
  · exact runSystem_supplied htest suppliedVar U s
  · have hbelow : SameBelow n G G' := (sameBelow_suppliedSystem n _ G suppliedVar).trans hG'
      (le_suppliedNext n suppliedVar)
    have hvalue : (suppliedName n suppliedVar).value
        (mix (suppliedBindings (.ofBool given.isSome) suppliedVar) U) G' = .ofBool given.isSome :=
      value_suppliedName (G := G) hG' (mix_suppliedBindings _ suppliedVar U)
    show runUser I G' [(name, .ite (suppliedName n suppliedVar) yes (.init init))] (_, s) = _
    rw [runUser]
    cases given with
    | some v =>
      rw [eval_ite_t hvalue, hyes v rfl _ G' s hbelow]
      show some (Function.update (mix _ U) name v, s) =
        assignSupplied .t suppliedVar (Function.update U name v, s)
      rw [assignSupplied_eq]
      exact congrArg (fun V => some (V, s)) (mix_update hname v U).symm
    | none =>
      have hinit : ∀ x ∈ (suppliedBindings .nil suppliedVar).map Prod.fst, x ∉ init.vars := by
        rw [map_fst_suppliedBindings]
        exact fun x hx h => hearly x hx (List.mem_append_left _ h)
      rw [eval_ite_nil hvalue, eval]
      show some (Function.update (mix (suppliedBindings .nil suppliedVar) U) name
          (evalInit I (mix (suppliedBindings .nil suppliedVar) U) s init).1,
          (evalInit I (mix (suppliedBindings .nil suppliedVar) U) s init).2) =
        assignSupplied .nil suppliedVar
          (Function.update U name (evalInit I U s init).1, (evalInit I U s init).2)
      rw [assignSupplied_eq, evalInit_mix hinit]
      exact congrArg (fun V => some (V, (evalInit I U s init).2))
        (mix_update hname (evalInit I U s init).1 U).symm

theorem fails_given (htest : Stands I n G test .t) (hyes : Breaks I n G yes) (t : Target) :
    Fails I G
      ((Output.system (suppliedNext n suppliedVar) (suppliedName n suppliedVar) test).append
        (parseTarget (.ite (suppliedName n suppliedVar) yes (.init init))
          (suppliedNext n suppliedVar) t))
      (suppliedVar.toList ++ t.suppliedVars) := by
  intro U s st hrun G' hG' U' s' hU'
  have hsystem := runSystem_supplied htest suppliedVar U s
  rw [show (Output.append _ _).systemLets = [(suppliedName n suppliedVar, test)] ++
    (parseTarget (.ite (suppliedName n suppliedVar) yes (.init init)) (suppliedNext n suppliedVar)
      t).systemLets from rfl, runSystem_append, hsystem, Option.bind_some] at hrun
  have hkeeps := runSystem_keeps (above_parseTarget _ (suppliedNext n suppliedVar) t).2 hrun
  cases t with
  | symbol name =>
    have hsame : SameBelow (suppliedNext n suppliedVar) (suppliedSystem n .t G suppliedVar) G' :=
      hkeeps.1.trans hG' le_rfl
    have hvalue : (suppliedName n suppliedVar).value U' G' = .t := by
      refine value_suppliedName (G := G) hsame fun x hx => ?_
      rw [hU' x (List.mem_append_left _ hx), hkeeps.2 x (fun h => by cases h)]
      exact mix_suppliedBindings .t suppliedVar U x hx
    have hbelow : SameBelow n G G' := (sameBelow_suppliedSystem n .t G suppliedVar).trans hsame
      (le_suppliedNext n suppliedVar)
    show runUser I G' [(name, .ite (suppliedName n suppliedVar) yes (.init init))] (U', s') = none
    rw [runUser, eval_ite_t hvalue, hyes U' G' s' hbelow]
    rfl
  | nested list =>
    exfalso
    have hvalue : (suppliedName n suppliedVar).value (mix (suppliedBindings .t suppliedVar) U)
        (suppliedSystem n .t G suppliedVar) = .t :=
      value_suppliedName (G := G) (SameBelow.refl _ _) (mix_suppliedBindings .t suppliedVar U)
    rw [parseTarget, Output.append, Output.system, List.singleton_append, runSystem, eval,
      eval_ite_t hvalue, hyes _ _ s (sameBelow_suppliedSystem n .t G suppliedVar)] at hrun
    cases hrun

theorem given_value (hyes : ∀ v, given = some v → Stands I n G yes v) {list : LambdaList}
    (hok : OkGiven given (.nested list) init) :
    ∃ v, (listp v = true → OkLambdaList list v v) ∧
      (∀ U s, (∀ x ∈ suppliedVar.toList, U x = .ofBool given.isSome) →
        eval I U (suppliedSystem n (.ofBool given.isSome) G suppliedVar)
          (.ite (suppliedName n suppliedVar) yes (.init init)) s = some (v, s)) ∧
      bindGiven I given init (bindTarget I (.nested list)) suppliedVar =
        fun b => (bindTarget I (.nested list) v b).bind
          (assignSupplied (.ofBool given.isSome) suppliedVar) := by
  have hvalue : ∀ U : String → Value, (∀ x ∈ suppliedVar.toList, U x = .ofBool given.isSome) →
      (suppliedName n suppliedVar).value U (suppliedSystem n (.ofBool given.isSome) G suppliedVar) =
        .ofBool given.isSome := fun U hU => value_suppliedName (SameBelow.refl _ _) hU
  cases given with
  | some v =>
    refine ⟨v, hok, fun U s hU => ?_, rfl⟩
    rw [eval_ite_t (hvalue U hU)]
    exact hyes v rfl U _ s (sameBelow_suppliedSystem n _ G suppliedVar)
  | none =>
    cases init with
    | absent =>
      refine ⟨.nil, fun _ => hok, fun U s hU => ?_, rfl⟩
      rw [eval_ite_nil (hvalue U hU), eval]
      rfl
    | constant v =>
      refine ⟨v, hok, fun U s hU => ?_, rfl⟩
      rw [eval_ite_nil (hvalue U hU), eval]
      rfl
    | form i vars => exact hok.elim

theorem correct_given_nested (htest : Stands I n G test (.ofBool given.isSome))
    (hyes : ∀ v, given = some v → Stands I n G yes v) {list : LambdaList}
    (hok : OkGiven given (.nested list) init)
    (hearly : Apart list.uses suppliedVar.toList)
    (hlist : ∀ m G' v, G' m = v → OkLambdaList list v v →
      Correct I (m + 1) G' (parseDefmacroLambdaList m ⟨m, 0⟩ (m + 1) list)
        (bindLambdaList I list v v) list.suppliedVars) :
    Correct I n G
      ((Output.system (suppliedNext n suppliedVar) (suppliedName n suppliedVar) test).append
        (parseTarget (.ite (suppliedName n suppliedVar) yes (.init init))
          (suppliedNext n suppliedVar) (.nested list)))
      (bindGiven I given init (bindTarget I (.nested list)) suppliedVar)
      (suppliedVar.toList ++ (Target.nested list).suppliedVars) := by
  obtain ⟨v, hv, heval, hbind⟩ := given_value hyes hok
  have hsystem := runSystem_supplied htest suppliedVar
  have hcode : ∀ U s, eval I (mix (suppliedBindings (.ofBool given.isSome) suppliedVar) U)
      (suppliedSystem n (.ofBool given.isSome) G suppliedVar)
      (.ite (suppliedName n suppliedVar) yes (.init init)) s = some (v, s) :=
    fun U s => heval _ s (mix_suppliedBindings _ suppliedVar U)
  rw [hbind]
  cases hlistp : listp v with
  | false =>
    refine Or.inl ⟨fun U s st hrun => ?_, fun x => ?_⟩
    · exfalso
      rw [show (Output.append _ _).systemLets = [(suppliedName n suppliedVar, test)] ++
        (parseTarget (.ite (suppliedName n suppliedVar) yes (.init init))
          (suppliedNext n suppliedVar) (.nested list)).systemLets from rfl, runSystem_append,
        hsystem, Option.bind_some, parseTarget, Output.append, Output.system,
        List.singleton_append, runSystem, eval, hcode] at hrun
      simp [hlistp] at hrun
    · show (bindTarget I (.nested list) v x).bind _ = none
      rw [bindTarget_of_not_listp hlistp]
      rfl
  | true =>
    have hlets : ∀ U s, runSystem I [(suppliedName n suppliedVar, test),
        (.gensym (suppliedNext n suppliedVar),
          .sublist (.ite (suppliedName n suppliedVar) yes (.init init)))] (U, G, s) =
        some (mix (suppliedBindings (.ofBool given.isSome) suppliedVar) U,
          Function.update (suppliedSystem n (.ofBool given.isSome) G suppliedVar)
            (suppliedNext n suppliedVar) v, s) := by
      intro U s
      rw [← List.singleton_append, runSystem_append, hsystem, Option.bind_some, runSystem, eval,
        hcode]
      simp [hlistp, runSystem, bindName]
    have hbelow : SameBelow n G (Function.update
        (suppliedSystem n (.ofBool given.isSome) G suppliedVar) (suppliedNext n suppliedVar) v) :=
      (sameBelow_suppliedSystem n _ G suppliedVar).trans (sameBelow_update _ _ v)
        (le_suppliedNext n suppliedVar)
    have hinner := hlist (suppliedNext n suppliedVar) (Function.update
      (suppliedSystem n (.ofBool given.isSome) G suppliedVar) (suppliedNext n suppliedVar) v) v
      (Function.update_self _ _ _) (hv hlistp)
    have hwhole := Correct.withLets hlets hbelow
      ((le_suppliedNext n suppliedVar).trans (Nat.le_succ _)) hinner fun x hx =>
        frames_bindLambdaList list v v (hearly x (by rwa [map_fst_suppliedBindings] at hx))
    rw [map_fst_suppliedBindings] at hwhole
    have hbinder : (fun b => (bindTarget I (.nested list) v b).bind
          (assignSupplied (.ofBool given.isSome) suppliedVar)) =
        fun x => (bindLambdaList I list v v x).map fun r =>
          (mix (suppliedBindings (.ofBool given.isSome) suppliedVar) r.1, r.2) := by
      funext x
      rw [bindTarget_of_listp hlistp]
      cases bindLambdaList I list v v x with
      | none => rfl
      | some r => exact assignSupplied_eq _ suppliedVar r
    have houtput : (Output.system (suppliedNext n suppliedVar) (suppliedName n suppliedVar)
          test).append (parseTarget (.ite (suppliedName n suppliedVar) yes (.init init))
            (suppliedNext n suppliedVar) (.nested list)) =
        { parseDefmacroLambdaList (suppliedNext n suppliedVar) ⟨suppliedNext n suppliedVar, 0⟩
            (suppliedNext n suppliedVar + 1) list with
          systemLets := [(suppliedName n suppliedVar, test),
            (.gensym (suppliedNext n suppliedVar),
              .sublist (.ite (suppliedName n suppliedVar) yes (.init init)))] ++
            (parseDefmacroLambdaList (suppliedNext n suppliedVar) ⟨suppliedNext n suppliedVar, 0⟩
              (suppliedNext n suppliedVar + 1) list).systemLets } := by
      simp [Output.append, Output.system, parseTarget]
    rw [hbinder, houtput]
    exact hwhole

end Given

/-! ## Whole lambda lists -/

theorem correct_nested {code : Code} {v : Value} (hcode : Stands I n G code v) {list : LambdaList}
    (hok : OkTarget (.nested list) v)
    (hlist : ∀ m G' v, G' m = v → OkLambdaList list v v →
      Correct I (m + 1) G' (parseDefmacroLambdaList m ⟨m, 0⟩ (m + 1) list)
        (bindLambdaList I list v v) list.suppliedVars) :
    Correct I n G (parseTarget code n (.nested list)) (bindTarget I (.nested list) v)
      (Target.nested list).suppliedVars := by
  cases hlistp : listp v with
  | false =>
    rw [bindTarget_of_not_listp hlistp]
    refine Or.inl ⟨fun U s st hrun => ?_, fun x => rfl⟩
    exfalso
    rw [parseTarget, Output.append, Output.system, List.singleton_append, runSystem, eval,
      hcode U G s (SameBelow.refl n G)] at hrun
    simp [hlistp] at hrun
  | true =>
    rw [bindTarget_of_listp hlistp]
    have hlets : ∀ U s, runSystem I [(.gensym n, .sublist code)] (U, G, s) =
        some (mix [] U, Function.update G n v, s) := by
      intro U s
      rw [runSystem, eval, hcode U G s (SameBelow.refl n G)]
      simp [hlistp, runSystem, bindName, mix]
    have hinner := hlist n _ v (Function.update_self n v G) (hok hlistp)
    have hwhole := Correct.withLets hlets (sameBelow_update n G v) (Nat.le_succ n) hinner
      (fun x hx => (by cases hx))
    have hbinder : bindLambdaList I list v v =
        fun x => (bindLambdaList I list v v x).map fun r => (mix [] r.1, r.2) := by
      funext x
      exact Option.map_id'.symm
    have houtput : parseTarget code n (.nested list) =
        { parseDefmacroLambdaList n ⟨n, 0⟩ (n + 1) list with
          systemLets := [(.gensym n, .sublist code)] ++
            (parseDefmacroLambdaList n ⟨n, 0⟩ (n + 1) list).systemLets } := by
      simp [Output.append, Output.system, parseTarget]
    rw [hbinder, houtput]
    exact hwhole

theorem runTest_argCount {path : Path} {args : Value} (h : Leads n G path args)
    {G' : ℕ → Value} (hG' : SameBelow n G G') (minimum maximum : ℕ) :
    runTest G' (.argCount path minimum maximum) = true ↔ CountIn args minimum maximum := by
  rw [runTest, h.value hG', Option.bind_some]
  unfold CountIn
  cases length args with
  | none => simp
  | some k => simp

theorem correct_level {argPath : Path} {args : Value} (hpath : Leads n G argPath args)
    {r : Required}
    (h : (r.restp = false → CountIn args r.minimum (r.minimum + r.optionalCount)) →
      Correct I n G (parseRequired argPath 0 argPath n r) (bindRequired I r args) r.suppliedVars) :
    Correct I n G (parseRequired argPath 0 argPath n r) (bindRequired I r args) r.suppliedVars := by
  by_cases hcount : r.restp = false → CountIn args r.minimum (r.minimum + r.optionalCount)
  · exact h hcount
  · rw [Classical.not_imp] at hcount
    refine Or.inl ⟨Fails.of_test (argCount_mem_parseRequired hcount.1)
      (above_parseRequired argPath 0 argPath n r) fun G' hG' => ?_, fun x => ?_⟩
    · rw [Bool.eq_false_iff, Ne, runTest_argCount hpath hG', Nat.zero_add]
      exact hcount.2
    · cases hbind : bindRequired I r args x with
      | none => rfl
      | some y => exact absurd (countIn_of_bindRequired hcount.1 hbind) hcount.2

theorem runUser_auxLets (G : ℕ → Value) : ∀ (auxs : List (String × Init)) (b : Bound σ),
    runUser I G (auxLets auxs) b = bindAuxs I auxs b
  | [], _ => rfl
  | (name, init) :: auxs, b => by
    rw [auxLets, List.map_cons, runUser, eval]
    exact runUser_auxLets G auxs _

theorem correct_auxs {tests : List Test} (htests : ∀ G', SameBelow n G G' →
      tests.all (runTest G') = true) (auxs : List (String × Init)) :
    Correct I n G ⟨[], tests, auxLets auxs, n⟩ (bindAuxs I auxs) [] := by
  refine Or.inr ⟨[], G, rfl, SameBelow.refl n G, fun U s => rfl, fun G' hG' U s => ?_⟩
  unfold Output.finish
  rw [if_pos (htests G' hG')]
  exact runUser_auxLets G' auxs (U, s)

theorem leads_base {g : ℕ} (hg : g < n) {v : Value} (hv : G g = v) : Leads n G ⟨g, 0⟩ v :=
  ⟨hg, congrArg some hv⟩

theorem Leads.stands_given {path : Path} {v : Value} (h : Leads n G path v) :
    Stands I n G (.given path) (.ofBool (v ≠ .nil)) := by
  intro U G' s hG'
  rw [eval, h.value hG']
  rfl

theorem Leads.stands_optionalCar {path : Path} {v a : Value} (h : Leads n G path v)
    (ha : car v = some a) : Stands I n G (.optionalCar path) a := by
  intro U G' s hG'
  rw [eval, h.value hG', Option.bind_eq_bind, Option.bind_some]
  cases v with
  | nil =>
    cases ha
    rfl
  | cons first rest =>
    cases ha
    rfl
  | t => cases ha
  | atom name => cases ha

theorem Correct.user_append {code : Code} {v : Value} (h : Stands I n G code v) {name : String}
    {o : Output} {c : Binder σ} {names : List String} (habove : Above n o names)
    (hearly : Apart [name] names)
    (h' : ∀ G', SameBelow n G G' → Correct I n G' o c names) :
    Correct I n G ((Output.user n name code).append o) (fun x => (assign name v x).bind c)
      names := by
  have happend := (correct_user h name).append le_rfl habove h'
    (fun x hx => frames_assign
      (fun hxn => hearly x hx (by rw [hxn]; exact List.mem_singleton_self _)) v)
    (fun x _ hx => (by cases hx))
  rwa [List.nil_append] at happend

theorem all_runTest_of_argCount {argPath : Path} {minimum maximum : ℕ} {restp : Bool}
    (htest : restp = false → ∀ G', SameBelow n G G' →
      runTest G' (.argCount argPath minimum maximum) = true) (G' : ℕ → Value)
    (hG' : SameBelow n G G') :
    (if restp = true then [] else [Test.argCount argPath minimum maximum]).all (runTest G') =
      true := by
  cases restp with
  | true => rfl
  | false =>
    rw [if_neg Bool.false_ne_true, List.all_cons, htest rfl G' hG']
    rfl

theorem correct_noKey {argPath path : Path} {args : Value} {minimum maximum : ℕ} {restp : Bool}
    (hcount : restp = false → CountIn args 0 0)
    (htest : restp = false → ∀ G', SameBelow n G G' →
      runTest G' (.argCount argPath minimum maximum) = true) (auxs : List (String × Init)) :
    Correct I n G (parseKeyPart argPath minimum maximum path restp n (.noKey auxs))
      (bindKeyPart I (.noKey auxs) restp args) [] := by
  have hbinder : bindKeyPart I (.noKey auxs) restp args = bindAuxs I auxs := by
    rw [bindKeyPart]
    funext b
    refine if_pos ?_
    cases restp with
    | true => rfl
    | false =>
      obtain ⟨k, hk, -, hk0⟩ := hcount rfl
      rw [Bool.false_or, decide_eq_true_iff]
      cases args with
      | nil => rfl
      | cons a args =>
        rw [length] at hk
        obtain ⟨j, -, hj⟩ := Option.map_eq_some_iff.mp hk
        omega
      | t => cases hk
      | atom name => cases hk
  rw [hbinder, parseKeyPart]
  exact correct_auxs (all_runTest_of_argCount htest) auxs

theorem verifyKeywords_mem_parseKeys {list : ℕ} : ∀ {k : Keys} {keys : List String} {n : ℕ},
    k.keywords.reverse ++ keys ≠ [] →
    .verifyKeywords list (k.keywords.reverse ++ keys) k.allowOtherKeys ∈
      (parseKeys list keys n k).argTests
  | .var keyword name rest, keys, n, h => by
    rw [Keys.keywords, List.reverse_cons, List.append_assoc] at h ⊢
    rw [parseKeys]
    exact List.mem_append_left _ (verifyKeywords_mem_parseKeys h)
  | .cons keyword target init suppliedVar rest, keys, n, h => by
    rw [Keys.keywords, List.reverse_cons, List.append_assoc] at h ⊢
    rw [parseKeys]
    exact List.mem_append_left _ (verifyKeywords_mem_parseKeys h)
  | .done allow auxs, keys, n, h => by
    rw [parseKeys]
    cases keys with
    | nil => exact absurd rfl h
    | cons k keys => exact List.mem_singleton_self _

theorem Leads.breaks_optionalCar {path : Path} {v : Value} (h : Leads n G path v)
    (ha : car v = none) : Breaks I n G (.optionalCar path) := by
  intro U G' s hG'
  rw [eval, h.value hG', Option.bind_eq_bind, Option.bind_some]
  cases v with
  | nil => cases ha
  | cons first rest => cases ha
  | t => rfl
  | atom name => rfl

theorem CountIn.cdr {args d : Value} {maximum : ℕ} (h : CountIn args 0 (maximum + 1))
    (hd : cdr args = some d) : CountIn d 0 maximum := by
  cases args with
  | nil =>
    cases hd
    exact ⟨0, rfl, le_rfl, Nat.zero_le maximum⟩
  | cons a args =>
    cases hd
    obtain ⟨k, hk, -, hmax⟩ := h
    obtain ⟨j, hj, hjk⟩ := Option.map_eq_some_iff.mp hk
    exact ⟨j, hj, Nat.zero_le j, by omega⟩
  | t => cases hd
  | atom name => cases hd

theorem correct_key {path : Path} {args : Value} (hpath : Leads n G path args) {keys : Keys}
    (hok : OkKeyPart (.key keys) args) {argPath : Path} {minimum maximum : ℕ} {restp : Bool}
    (h : keywordsValid keys.keywords (keys.allowOtherKeys || othersAllowed args) args = true →
      Correct I (n + 1) (Function.update G n args) (parseKeys n [] (n + 1) keys)
        (bindKeys I keys args) keys.suppliedVars) :
    Correct I n G (parseKeyPart argPath minimum maximum path restp n (.key keys))
      (bindKeyPart I (.key keys) restp args) keys.suppliedVars := by
  have hlets : ∀ U s, runSystem I [(.gensym n, .path path)] (U, G, s) =
      some (mix [] U, Function.update G n args, s) := by
    intro U s
    rw [runSystem, hpath.stands_path U G s (SameBelow.refl n G)]
    rfl
  have houtput : parseKeyPart argPath minimum maximum path restp n (.key keys) =
      { parseKeys n [] (n + 1) keys with
        systemLets := [(.gensym n, .path path)] ++ (parseKeys n [] (n + 1) keys).systemLets } := by
    simp [parseKeyPart, Output.append, Output.system]
  have hkeys : Correct I (n + 1) (Function.update G n args) (parseKeys n [] (n + 1) keys)
      (bindKeyPart I (.key keys) restp args) keys.suppliedVars := by
    rw [bindKeyPart]
    by_cases hvalid : keywordsValid keys.keywords (keys.allowOtherKeys || othersAllowed args)
        args = true
    · simp only [if_pos hvalid]
      exact h hvalid
    · simp only [if_neg hvalid]
      obtain ⟨hne, hnil⟩ := hok.1.resolve_left hvalid
      have hne' : keys.keywords.reverse ++ [] ≠ [] := by
        rw [List.append_nil]
        exact fun h => hne (List.reverse_eq_nil_iff.mp h)
      refine Or.inl ⟨Fails.of_test (verifyKeywords_mem_parseKeys hne')
        (above_parseKeys n [] (n + 1) keys) fun G' hG' => ?_, fun _ => rfl⟩
      rw [runTest, hG' n (Nat.lt_succ_self n), Function.update_self, List.append_nil,
        verifyKeywords_reverse, Bool.eq_false_iff]
      exact fun hverify => hvalid (keywordsValid_of_verifyKeywords hnil hverify)
  have hwhole := Correct.withLets hlets (sameBelow_update n G args) (Nat.le_succ n) hkeys
    (fun x hx => (by cases hx))
  have hbinder : bindKeyPart I (.key keys) restp args =
      fun x => (bindKeyPart I (.key keys) restp args x).map fun r => (mix [] r.1, r.2) := by
    funext x
    exact Option.map_id'.symm
  rw [hbinder, houtput]
  exact hwhole

/-- A parameter that may be missing, before the rest of a lambda list. -/
theorem Correct.given_append {given : Option Value} {init : Init} {t : Target}
    {suppliedVar : Option String} {code : Code} {test : Code} {o : Output} {c : Binder σ}
    {names : List String}
    (h : Correct I n G
      ((Output.system (suppliedNext n suppliedVar) (suppliedName n suppliedVar) test).append
        (parseTarget code (suppliedNext n suppliedVar) t))
      (bindGiven I given init (bindTarget I t) suppliedVar) (suppliedVar.toList ++ t.suppliedVars))
    (habove : Above (parseTarget code (suppliedNext n suppliedVar) t).next o names)
    (hearly : Apart (init.vars ++ t.uses ++ suppliedVar.toList) names)
    (h' : ∀ G', SameBelow n G G' →
      Correct I (parseTarget code (suppliedNext n suppliedVar) t).next G' o c names) :
    Correct I n G
      (((Output.system (suppliedNext n suppliedVar) (suppliedName n suppliedVar) test).append
        (parseTarget code (suppliedNext n suppliedVar) t)).append o)
      (fun x => (bindGiven I given init (bindTarget I t) suppliedVar x).bind c)
      (suppliedVar.toList ++ t.suppliedVars ++ names) := by
  have hn : n ≤ (parseTarget code (suppliedNext n suppliedVar) t).next :=
    (le_suppliedNext n suppliedVar).trans (above_parseTarget code _ t).1
  refine Correct.append h hn habove h' (fun x hx => ?_) fun x hx hmem => ?_
  · have hnot := hearly x hx
    rw [List.mem_append, List.mem_append, not_or, not_or] at hnot
    exact frames_bindGiven (fun v => frames_bindTarget t v hnot.1.2) hnot.1.1 hnot.2
  · refine hearly x hx ?_
    rw [List.mem_append, List.mem_append]
    exact (List.mem_append.mp hmem).elim Or.inr
      fun hmem => Or.inl (Or.inr (Target.suppliedVars_uses t hmem))

mutual

theorem correct_target : ∀ (t : Target) {n : ℕ} {G : ℕ → Value} {code : Code} {v : Value},
    Stands I n G code v → OkTarget t v → t.Early →
    Correct I n G (parseTarget code n t) (bindTarget I t v) t.suppliedVars
  | .symbol name, _, _, _, _, hcode, _, _ => by
    rw [parseTarget, bindTarget]
    exact correct_user hcode name
  | .nested list, _, _, _, _, hcode, hok, hearly =>
    correct_nested hcode hok fun m _ _ hv hok' =>
      correct_lambdaList list (Nat.lt_succ_self m) hv (leads_base (Nat.lt_succ_self m) hv) hok'
        hearly

theorem correct_given : ∀ (t : Target) {n : ℕ} {G : ℕ → Value} {given : Option Value}
    {init : Init} {test yes : Code} {suppliedVar : Option String},
    Stands I n G test (.ofBool given.isSome) → (∀ v, given = some v → Stands I n G yes v) →
    OkGiven given t init → t.Early → Apart (init.vars ++ t.uses) suppliedVar.toList →
    Correct I n G
      ((Output.system (suppliedNext n suppliedVar) (suppliedName n suppliedVar) test).append
        (parseTarget (.ite (suppliedName n suppliedVar) yes (.init init))
          (suppliedNext n suppliedVar) t))
      (bindGiven I given init (bindTarget I t) suppliedVar) (suppliedVar.toList ++ t.suppliedVars)
  | .symbol _, _, _, _, _, _, _, _, htest, hyes, _, _, hapart =>
    correct_given_symbol htest hyes hapart
  | .nested list, _, _, _, _, _, _, _, htest, hyes, hok, hearly, hapart =>
    correct_given_nested htest hyes hok
      (fun x hx hmem => hapart x hx (List.mem_append_right _ hmem)) fun m _ _ hv hok' =>
      correct_lambdaList list (Nat.lt_succ_self m) hv (leads_base (Nat.lt_succ_self m) hv) hok'
        hearly

theorem correct_lambdaList : ∀ (l : LambdaList) {n : ℕ} {G : ℕ → Value} {argListName : ℕ}
    {path : Path} {whole args : Value}, argListName < n → G argListName = whole →
    Leads n G path args → OkLambdaList l whole args → l.Early →
    Correct I n G (parseDefmacroLambdaList argListName path n l) (bindLambdaList I l whole args)
      l.suppliedVars
  | .whole target rest, n, G, argListName, path, whole, args, hlt, hwhole, hpath, hok, hearly => by
    rw [parseDefmacroLambdaList, bindLambdaList]
    obtain ⟨htarget, hrest, hapart⟩ := hearly
    have hn := (above_parseTarget (.path ⟨argListName, 0⟩) n target).1
    refine Correct.append
      (correct_target target (leads_base hlt hwhole).stands_path hok.1 htarget) hn
      (above_parseRequired path 0 path _ rest) (fun G' hG' => ?_)
      (fun x hx => frames_bindTarget target whole (hapart x hx))
      fun x hx hmem => hapart x hx (Target.suppliedVars_uses target hmem)
    have hpath' := hpath.mono hG' hn
    exact correct_level hpath' fun hcount =>
      correct_required rest hpath' hok.2 hrest hcount fun hrestp G'' hG'' => by
        rw [runTest_argCount hpath' hG'', Nat.zero_add]
        exact hcount hrestp
  | .plain rest, n, G, argListName, path, whole, args, _, _, hpath, hok, hearly => by
    rw [parseDefmacroLambdaList, bindLambdaList]
    exact correct_level hpath fun hcount =>
      correct_required rest hpath hok hearly hcount fun hrestp G'' hG'' => by
        rw [runTest_argCount hpath hG'', Nat.zero_add]
        exact hcount hrestp

theorem correct_required : ∀ (r : Required) {n : ℕ} {G : ℕ → Value} {argPath path : Path}
    {minimum : ℕ} {args : Value}, Leads n G path args → OkRequired r args → r.Early →
    (r.restp = false → CountIn args r.minimum (r.minimum + r.optionalCount)) →
    (r.restp = false → ∀ G', SameBelow n G G' → runTest G' (.argCount argPath
      (minimum + r.minimum) (minimum + r.minimum + r.optionalCount)) = true) →
    Correct I n G (parseRequired argPath minimum path n r) (bindRequired I r args) r.suppliedVars
  | .cons target rest, n, G, argPath, path, minimum, args, hpath, hok, hearly, hcount, htest => by
    obtain ⟨htarget, hrest, hapart⟩ := hearly
    have hn := (above_parseTarget (.car path) n target).1
    have hatom : car args = none →
        Correct I n G (parseRequired argPath minimum path n (.cons target rest)) (fun _ => none)
          (Required.cons target rest).suppliedVars := by
      intro hcar
      rw [parseRequired]
      refine Or.inl ⟨Fails.append_left (fails_target (hpath.breaks_car hcar) target)
        (above_parseRequired argPath _ _ _ rest) ?_, fun _ => rfl⟩
      exact fun x hx hmem => hapart x hx (Target.suppliedVars_uses target hmem)
    cases args with
    | cons a args =>
      rw [parseRequired, bindRequired]
      refine Correct.append (correct_target target (hpath.stands_car rfl) hok.1 htarget) hn
        (above_parseRequired argPath _ _ _ rest) (fun G' hG' => ?_)
        (fun x hx => frames_bindTarget target a (hapart x hx))
        fun x hx hmem => hapart x hx (Target.suppliedVars_uses target hmem)
      refine correct_required rest ((hpath.cdr rfl).mono hG' hn) hok.2 hrest (fun hrestp => ?_)
        fun hrestp G'' hG'' => ?_
      · have hcount' := hcount hrestp
        rw [Required.minimum, Required.optionalCount, show rest.minimum + 1 + rest.optionalCount =
          rest.minimum + rest.optionalCount + 1 by omega] at hcount'
        exact countIn_cons.mp hcount'
      · have htest' := htest hrestp G'' (hG'.trans hG'' hn)
        rw [Required.minimum, Required.optionalCount, show minimum + (rest.minimum + 1) =
          minimum + 1 + rest.minimum by omega] at htest'
        exact htest'
    | nil =>
      obtain ⟨k, hk, hmin, -⟩ := hcount hok
      cases hk
      rw [Required.minimum] at hmin
      omega
    | t => exact hatom rfl
    | atom name => exact hatom rfl
  | .optionals rest, n, G, argPath, path, minimum, args, hpath, hok, hearly, hcount, htest => by
    rw [parseRequired, bindRequired]
    refine correct_optionals rest hpath hok hearly (fun hrestp => ?_) fun hrestp G' hG' => ?_
    · have hcount' := hcount hrestp
      rw [Required.minimum, Required.optionalCount, Nat.zero_add] at hcount'
      exact hcount'
    · exact htest hrestp G' hG'

theorem correct_optionals : ∀ (o : Optionals) {n : ℕ} {G : ℕ → Value} {argPath path : Path}
    {minimum maximum : ℕ} {args : Value}, Leads n G path args → OkOptionals o args → o.Early →
    (o.restp = false → CountIn args 0 o.count) →
    (o.restp = false → ∀ G', SameBelow n G G' →
      runTest G' (.argCount argPath minimum (maximum + o.count)) = true) →
    Correct I n G (parseOptionals argPath minimum maximum path n o) (bindOptionals I o args)
      o.suppliedVars
  | .var name rest, n, G, argPath, path, minimum, maximum, args, hpath, hok, hearly, hcount,
      htest => by
    have hatom : car args = none →
        Correct I n G (parseOptionals argPath minimum maximum path n (.var name rest))
          (fun _ => none) (Optionals.var name rest).suppliedVars := by
      intro hcar
      rw [parseOptionals]
      have hfails := fails_target (I := I) (hpath.breaks_optionalCar hcar) (.symbol name)
      rw [parseTarget] at hfails
      exact Or.inl ⟨Fails.append_left hfails (above_parseOptionals argPath _ _ _ _ rest)
        (fun _ _ hx => (by cases hx)), fun _ => rfl⟩
    have hrest : ∀ {a d : Value}, car args = some a → cdr args = some d → OkOptionals rest d →
        Correct I n G (parseOptionals argPath minimum maximum path n (.var name rest))
          (fun x => (assign name a x).bind (bindOptionals I rest d))
          (Optionals.var name rest).suppliedVars := by
      intro a d ha hd hok'
      rw [parseOptionals]
      refine Correct.user_append (hpath.stands_optionalCar ha)
        (above_parseOptionals argPath _ _ _ _ rest) hearly.2 fun G' hG' => ?_
      refine correct_optionals rest ((hpath.cdr hd).mono hG' le_rfl) hok' hearly.1
        (fun hrestp => (hcount hrestp).cdr hd) fun hrestp G'' hG'' => ?_
      rw [Nat.add_right_comm, Nat.add_assoc]
      exact htest hrestp G'' (hG'.trans hG'' le_rfl)
    cases args with
    | cons a args =>
      rw [bindOptionals]
      exact hrest rfl rfl hok
    | nil =>
      rw [bindOptionals]
      exact hrest rfl rfl hok
    | t => exact hatom rfl
    | atom name => exact hatom rfl
  | .cons target init suppliedVar rest, n, G, argPath, path, minimum, maximum, args, hpath, hok,
      hearly, hcount, htest => by
    obtain ⟨htarget, hrestEarly, hsupplied, hapart⟩ := hearly
    have hatom : car args = none → args ≠ .nil →
        Correct I n G (parseOptionals argPath minimum maximum path n
            (.cons target init suppliedVar rest))
          (fun _ => none) (Optionals.cons target init suppliedVar rest).suppliedVars := by
      intro hcar hne
      rw [parseOptionals]
      have hgiven := hpath.stands_given (I := I)
      rw [decide_eq_true hne] at hgiven
      refine Or.inl ⟨Fails.append_left (fails_given hgiven (hpath.breaks_car hcar) target)
        (above_parseOptionals argPath _ _ _ _ rest) fun x hx hmem => ?_, fun _ => rfl⟩
      refine hapart x hx ?_
      rw [List.mem_append, List.mem_append]
      exact (List.mem_append.mp hmem).elim Or.inr
        fun hmem => Or.inl (Or.inr (Target.suppliedVars_uses target hmem))
    have hrest : ∀ {given : Option Value} {d : Value}, cdr args = some d → OkOptionals rest d →
        OkGiven given target init → given.isSome = decide (args ≠ .nil) →
        (∀ v, given = some v → car args = some v) →
        Correct I n G (parseOptionals argPath minimum maximum path n
            (.cons target init suppliedVar rest))
          (fun x => (bindGiven I given init (bindTarget I target) suppliedVar x).bind
            (bindOptionals I rest d))
          (Optionals.cons target init suppliedVar rest).suppliedVars := by
      intro given d hd hok' hgiven hsome hcar
      have htest' := hpath.stands_given (I := I)
      rw [← hsome] at htest'
      rw [parseOptionals]
      refine Correct.given_append (correct_given target htest'
        (fun v hv => hpath.stands_car (hcar v hv)) hgiven htarget hsupplied)
        (above_parseOptionals argPath _ _ _ _ rest) hapart fun G' hG' => ?_
      have hn := (le_suppliedNext n suppliedVar).trans (above_parseTarget
        (.ite (suppliedName n suppliedVar) (.car path) (.init init)) _ target).1
      refine correct_optionals rest ((hpath.cdr hd).mono hG' hn) hok' hrestEarly
        (fun hrestp => (hcount hrestp).cdr hd) fun hrestp G'' hG'' => ?_
      rw [Nat.add_right_comm, Nat.add_assoc]
      exact htest hrestp G'' (hG'.trans hG'' hn)
    cases args with
    | cons a args =>
      rw [bindOptionals]
      exact hrest rfl hok.2 hok.1 rfl fun v hv => hv
    | nil =>
      rw [bindOptionals]
      exact hrest rfl hok.2 hok.1 rfl fun v hv => (by cases hv)
    | t => exact hatom rfl (by decide)
    | atom name => exact hatom rfl (fun h => by cases h)
  | .tail rest, n, G, argPath, path, minimum, maximum, args, hpath, hok, hearly, hcount,
      htest => by
    rw [parseOptionals, bindOptionals]
    exact correct_tail rest hpath hok hearly hcount htest

theorem correct_tail : ∀ (t : Tail) {n : ℕ} {G : ℕ → Value} {argPath path : Path}
    {minimum maximum : ℕ} {args : Value}, Leads n G path args → OkTail t args → t.Early →
    (t.restp = false → CountIn args 0 0) →
    (t.restp = false → ∀ G', SameBelow n G G' →
      runTest G' (.argCount argPath minimum maximum) = true) →
    Correct I n G (parseTail argPath minimum maximum path n t) (bindTail I t args) t.suppliedVars
  | .dotted name, n, G, argPath, path, minimum, maximum, args, hpath, hok, hearly, hcount,
      htest => by
    rw [parseTail, bindTail]
    exact correct_user hpath.stands_path name
  | .rest target keys, n, G, argPath, path, minimum, maximum, args, hpath, hok, hearly, hcount,
      htest => by
    rw [parseTail, bindTail]
    obtain ⟨htarget, hkeys, hapart⟩ := hearly
    have hn := (above_parseTarget (.path path) n target).1
    refine Correct.append (correct_target target hpath.stands_path hok.1 htarget) hn
      (above_parseKeyPart argPath _ _ _ _ _ keys) (fun G' hG' => ?_)
      (fun x hx => frames_bindTarget target args (hapart x hx))
      fun x hx hmem => hapart x hx (Target.suppliedVars_uses target hmem)
    exact correct_keyPart keys (hpath.mono hG' hn) hok.2 hkeys (fun h => (by cases h))
      fun h => (by cases h)
  | .noRest keys, n, G, argPath, path, minimum, maximum, args, hpath, hok, hearly, hcount,
      htest => by
    rw [parseTail, bindTail]
    exact correct_keyPart keys hpath hok hearly (fun _ => hcount) fun _ => htest

theorem correct_keyPart : ∀ (k : KeyPart) {n : ℕ} {G : ℕ → Value} {argPath path : Path}
    {minimum maximum : ℕ} {restp : Bool} {args : Value}, Leads n G path args →
    OkKeyPart k args → k.Early → (restp = false → k.restp = false → CountIn args 0 0) →
    (restp = false → k.restp = false → ∀ G', SameBelow n G G' →
      runTest G' (.argCount argPath minimum maximum) = true) →
    Correct I n G (parseKeyPart argPath minimum maximum path restp n k)
      (bindKeyPart I k restp args) k.suppliedVars
  | .key keys, n, G, argPath, path, minimum, maximum, restp, args, hpath, hok, hearly, hcount,
      htest => by
    refine correct_key hpath hok fun hvalid => ?_
    refine correct_keys keys (Nat.lt_succ_self n) (Function.update_self n args G) hvalid hok.2
      hearly fun _ => ?_
    rw [List.append_nil, verifyKeywords_reverse]
    exact verifyKeywords_of_keywordsValid hvalid
  | .noKey auxs, n, G, argPath, path, minimum, maximum, restp, args, hpath, hok, hearly, hcount,
      htest => correct_noKey (fun h => hcount h rfl) (fun h => htest h rfl) auxs

theorem correct_keys : ∀ (k : Keys) {n : ℕ} {G : ℕ → Value} {list : ℕ} {keys valid : List String}
    {allow : Bool} {args : Value}, list < n → G list = args →
    keywordsValid valid allow args = true → OkKeys k args → k.Early →
    (k.keywords.reverse ++ keys ≠ [] → verifyKeywords args (k.keywords.reverse ++ keys)
      k.allowOtherKeys = true) →
    Correct I n G (parseKeys list keys n k) (bindKeys I k args) k.suppliedVars
  | .var keyword name rest, n, G, list, keys, valid, allow, args, hlt, hlist, hvalid, hok, hearly,
      htest => by
    rw [parseKeys, bindKeys]
    rw [Keys.keywords, List.reverse_cons, List.append_assoc] at htest
    have hcode : Stands I n G (.lookupKeyword keyword list)
        ((keywordValue keyword args).getD .nil) := by
      intro U G' s hG'
      rw [eval, hG' list hlt, hlist, lookupKeyword_of_valid hvalid]
      rfl
    refine Correct.user_append hcode (above_parseKeys list _ _ rest) hearly.2 fun G' hG' => ?_
    exact correct_keys rest hlt ((hG' list hlt).trans hlist) hvalid hok hearly.1 htest
  | .cons keyword target init suppliedVar rest, n, G, list, keys, valid, allow, args, hlt, hlist,
      hvalid, hok, hearly, htest => by
    obtain ⟨htarget, hrestEarly, hsupplied, hapart⟩ := hearly
    rw [parseKeys, bindKeys]
    rw [Keys.keywords, List.reverse_cons, List.append_assoc] at htest
    have hgiven : Stands I n G (.keywordSuppliedP keyword list)
        (.ofBool (keywordValue keyword args).isSome) := by
      intro U G' s hG'
      rw [eval, hG' list hlt, hlist, keywordSuppliedP_of_valid hvalid]
      rfl
    have hcode : ∀ v, keywordValue keyword args = some v →
        Stands I n G (.lookupKeyword keyword list) v := by
      intro v hv U G' s hG'
      rw [eval, hG' list hlt, hlist, lookupKeyword_of_valid hvalid, hv]
      rfl
    refine Correct.given_append (correct_given target hgiven hcode hok.1 htarget hsupplied)
      (above_parseKeys list _ _ rest) hapart fun G' hG' => ?_
    have hn := (le_suppliedNext n suppliedVar).trans (above_parseTarget
      (.ite (suppliedName n suppliedVar) (.lookupKeyword keyword list) (.init init)) _ target).1
    exact correct_keys rest (hlt.trans_le hn) ((hG' list hlt).trans hlist) hvalid hok.2 hrestEarly
      htest
  | .done allowOthers auxs, n, G, list, keys, valid, allow, args, hlt, hlist, hvalid, hok, hearly,
      htest => by
    rw [parseKeys, bindKeys]
    refine correct_auxs (fun G' hG' => ?_) auxs
    cases keys with
    | nil => rfl
    | cons k keys =>
      rw [List.isEmpty_cons, if_neg Bool.false_ne_true, List.all_cons, runTest, hG' list hlt, hlist]
      exact congrArg (· && true) (htest (List.cons_ne_nil k keys))

end

end Run

/-- `(a (b &optional (c a)) &key (d c d-given))`. -/
def sampleList : LambdaList :=
  .plain (.cons (.symbol "a") (.cons
    (.nested (.plain (.cons (.symbol "b") (.optionals
      (.cons (.symbol "c") (.form 0 ["a"]) none (.tail (.noRest (.noKey [])))))))) (.optionals
    (.tail (.noRest (.key (.cons "D" (.symbol "d") (.form 1 ["c"]) (some "d-given")
      (.done false []))))))))

/-- `(1 (2) :d 3)`. -/
def sampleArgs : Value :=
  .cons (.atom "1") (.cons (.cons (.atom "2") .nil) (.cons (.atom "D") (.cons (.atom "3") .nil)))

/-- An init form `(f x)` returns `x`. -/
def sampleInterp : Interp Unit := fun _ xs s => (xs.headD .nil, s)

end Xcl.Destructuring
