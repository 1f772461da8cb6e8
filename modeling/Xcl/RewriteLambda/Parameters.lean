import Xcl.RewriteLambda.Steps

/-!
# Parameters and their steps
-/

namespace Xcl.RewriteLambda

open Binding

variable {Symbol Form Value Exit : Type}

/-! ## Renamed parameters -/

theorem parameters_source (l : LambdaList Symbol Form Symbol) :
    l.source.parameters = l.parameters.map fun p => (Name.source p.1, p.2) := by
  have hkeys : l.source.keys.map (fun p => (p.var, p.init)) =
      l.keys.map fun p => (Name.source p.var, p.init) := by
    unfold LambdaList.keys LambdaList.source
    cases l.key with
    | none => rfl
    | some ps =>
      simp only [Option.map_some, Option.getD_some, List.map_map]
      refine List.map_congr_left fun p _ => ?_
      cases p <;> rfl
  rw [LambdaList.parameters, hkeys, LambdaList.parameters]
  cases h : l.rest <;>
    simp [LambdaList.source, Function.comp_def, h]

theorem vars_source (l : LambdaList Symbol Form Symbol) :
    l.source.vars = l.vars.map .source := by
  simp [LambdaList.vars, parameters_source, Function.comp_def]

theorem suppliedPs_source (l : LambdaList Symbol Form Symbol) :
    l.source.suppliedPs = l.suppliedPs := by
  simp [LambdaList.suppliedPs, parameters_source, List.flatMap_map]

theorem atom_mem_source {l : LambdaList Symbol Form Symbol} {s : Symbol} :
    .atom (.source s) ∈ l.source.keys ↔ .atom s ∈ l.keys := by
  unfold LambdaList.keys LambdaList.source
  cases l.key with
  | none => simp
  | some ps =>
    simp only [Option.map_some, Option.getD_some, List.mem_map]
    constructor
    · rintro ⟨_ | _ | _, hp, heq⟩ <;> cases heq
      exact hp
    · exact fun hp => ⟨_, hp, rfl⟩

theorem mem_bound {l : LambdaList Symbol Form (Name Symbol)} {s : Symbol} :
    s ∈ l.bound ↔ .source s ∈ l.vars ∨ s ∈ l.suppliedPs := by
  rw [LambdaList.bound, List.mem_append, List.mem_filterMap]
  refine or_congr_left ⟨?_, fun h => ⟨_, h, rfl⟩⟩
  rintro ⟨_ | n, hmem, hs⟩
  · obtain rfl := Option.some.inj hs
    exact hmem
  · cases hs

theorem mem_bound_source {l : LambdaList Symbol Form Symbol} {s : Symbol} :
    s ∈ l.source.bound ↔ s ∈ l.names := by
  rw [mem_bound, vars_source, suppliedPs_source]
  simp only [LambdaList.vars, LambdaList.suppliedPs, LambdaList.names, List.mem_map,
    List.mem_flatMap, List.mem_cons]
  constructor
  · rintro (⟨_, ⟨p, hp, rfl⟩, hs⟩ | ⟨p, hp, hs⟩)
    · exact ⟨p, hp, .inl (Name.source.inj hs).symm⟩
    · exact ⟨p, hp, .inr hs⟩
  · rintro ⟨p, hp, rfl | hs⟩
    · exact .inl ⟨_, ⟨p, hp, rfl⟩, rfl⟩
    · exact .inr ⟨p, hp, hs⟩

section Replace

variable [DecidableEq Symbol]

theorem KeyParameter.var_replace (s : Symbol) (n : ℕ)
    (p : KeyParameter Symbol Form (Name Symbol)) :
    (p.replace s n).var = replaceName s n p.var := by
  cases p with
  | atom x => rfl
  | spec x init => by_cases h : x = .source s <;> simp [replace, var, replaceName, h]
  | keySpec key x init => rfl

theorem KeyParameter.init_replace (s : Symbol) (n : ℕ)
    (p : KeyParameter Symbol Form (Name Symbol)) : (p.replace s n).init = p.init := by
  cases p with
  | atom x => rfl
  | spec x i => by_cases h : x = .source s <;> simp [replace, init, h]
  | keySpec key x i => rfl

theorem KeyParameter.key_replace {s : Symbol} (n : ℕ)
    {p : KeyParameter Symbol Form (Name Symbol)} (h : p ≠ .atom (.source s)) :
    (p.replace s n).key = p.key := by
  cases p with
  | atom x =>
    have hx : x ≠ .source s := fun hx => h (by rw [hx])
    simp [replace, replaceName, hx]
  | spec x i =>
    by_cases hx : x = .source s <;> simp [replace, key, hx]
  | keySpec key x i => rfl

theorem keys_replace (s : Symbol) (n : ℕ) (l : LambdaList Symbol Form (Name Symbol)) :
    (l.replace s n).keys = l.keys.map (KeyParameter.replace s n) := by
  unfold LambdaList.keys LambdaList.replace
  cases l.key <;> rfl

theorem parameters_replace (s : Symbol) (n : ℕ) (l : LambdaList Symbol Form (Name Symbol)) :
    (l.replace s n).parameters = l.parameters.map fun p => (replaceName s n p.1, p.2) := by
  rw [LambdaList.parameters, keys_replace, LambdaList.parameters]
  cases h : l.rest <;>
    simp [LambdaList.replace, Function.comp_def, h, KeyParameter.var_replace,
      KeyParameter.init_replace]

theorem vars_replace (s : Symbol) (n : ℕ) (l : LambdaList Symbol Form (Name Symbol)) :
    (l.replace s n).vars = l.vars.map (replaceName s n) := by
  simp [LambdaList.vars, parameters_replace, Function.comp_def]

theorem suppliedPs_replace (s : Symbol) (n : ℕ) (l : LambdaList Symbol Form (Name Symbol)) :
    (l.replace s n).suppliedPs = l.suppliedPs := by
  simp [LambdaList.suppliedPs, parameters_replace, List.flatMap_map]

/-! ## The steps of renamed parameters -/

section Steps

variable {obj : Objects Symbol Value Exit} {special : Symbol → Bool} {s : Symbol} (n : ℕ)

theorem map_replace_supplied {names : List Symbol} (h : s ∉ names) (value : Value) :
    (names.map fun t => (.bind (special t) (.source t) value : Step Symbol Form Value)).map
        (Step.replace s n) =
      names.map fun t => .bind (special t) (.source t) value := by
  rw [List.map_map]
  refine List.map_congr_left fun t ht => ?_
  have hne : Name.source t ≠ .source s := by
    rintro ⟨⟩
    exact h ht
  simp [Step.replace, hne]

theorem suppliedSteps_replace {init : Option (Initform Symbol Form)} (h : s ∉ suppliedP init)
    (name : Name Symbol) (value : Value) :
    (suppliedSteps obj special name init value).map (Step.replace s n) =
      suppliedSteps obj special (replaceName s n name) init value := by
  rw [suppliedSteps, List.map_cons, map_replace_supplied n h, suppliedSteps]
  by_cases hname : name = .source s <;> simp [Step.replace, replaceName, hname, Name.isSpecial]

theorem missingSteps_replace {init : Option (Initform Symbol Form)} (h : s ∉ suppliedP init)
    (name : Name Symbol) :
    (missingSteps obj special name init).map (Step.replace s n) =
      missingSteps obj special (replaceName s n name) init := by
  unfold missingSteps
  rw [List.map_cons, map_replace_supplied n h]
  cases init <;> by_cases hname : name = .source s <;>
    simp [Step.replace, replaceName, hname, Name.isSpecial]

theorem requiredSteps_replace (names : List (Name Symbol)) (args : List Value) :
    (requiredSteps obj special names args : List (Step Symbol Form Value)).map
        (Step.replace s n) =
      requiredSteps obj special (names.map (replaceName s n)) args := by
  induction names generalizing args with
  | nil => rfl
  | cons name names ih =>
    rw [requiredSteps, List.map_cons, ih, List.map_cons, requiredSteps]
    by_cases hname : name = .source s <;> simp [Step.replace, replaceName, hname, Name.isSpecial]

theorem optionalSteps_replace {ps : List (OptionalParameter Symbol Form (Name Symbol))}
    (h : ∀ p ∈ ps, s ∉ suppliedP p.init) (args : List Value) :
    (optionalSteps obj special ps args).map (Step.replace s n) =
      optionalSteps obj special (ps.map fun p => { p with var := replaceName s n p.var }) args := by
  induction ps generalizing args with
  | nil => rfl
  | cons p ps ih =>
    obtain ⟨hp, hps⟩ := List.forall_mem_cons.1 h
    cases args with
    | nil =>
      simp only [optionalSteps, List.map_append, List.map_cons, missingSteps_replace n hp, ih hps]
    | cons arg args =>
      simp only [optionalSteps, List.map_append, List.map_cons, suppliedSteps_replace n hp, ih hps]

variable [DecidableEq Value]

theorem keySteps_replace {ps : List (KeyParameter Symbol Form (Name Symbol))}
    (h : ∀ p ∈ ps, s ∉ suppliedP p.init) (hatom : .atom (.source s) ∉ ps) (args : List Value) :
    (keySteps obj special ps args).map (Step.replace s n) =
      keySteps obj special (ps.map (KeyParameter.replace s n)) args := by
  induction ps with
  | nil => rfl
  | cons p ps ih =>
    obtain ⟨hp, hps⟩ := List.forall_mem_cons.1 h
    obtain ⟨hne, hmem⟩ := List.ne_and_not_mem_of_not_mem_cons hatom
    have ih := ih hps hmem
    rw [keySteps] at ih
    simp only [keySteps, List.flatMap_cons, List.map_append, List.map_cons, ih,
      KeyParameter.key_replace n (Ne.symm hne), KeyParameter.var_replace,
      KeyParameter.init_replace]
    congr 1
    split
    · exact suppliedSteps_replace n hp _ _
    · exact missingSteps_replace n hp _

theorem checkKeywords_replace {l : LambdaList Symbol Form (Name Symbol)}
    (hatom : .atom (.source s) ∉ l.keys) (args : List Value) :
    checkKeywords obj (l.replace s n) args = checkKeywords obj l args := by
  have hknown : ((l.replace s n).keys.map fun p => obj.key p.key) =
      l.keys.map fun p => obj.key p.key := by
    rw [keys_replace, List.map_map]
    refine List.map_congr_left fun p hp => ?_
    rw [Function.comp_apply, KeyParameter.key_replace n fun hp' => hatom (hp' ▸ hp)]
  have hrest : (l.replace s n).rest.isNone = l.rest.isNone := by simp [LambdaList.replace]
  rw [checkKeywords, checkKeywords, hknown, hrest]
  rfl

theorem parameterSteps_replace {l : LambdaList Symbol Form (Name Symbol)}
    (h : s ∉ l.suppliedPs) (hatom : .atom (.source s) ∉ l.keys) (args : List Value) :
    (parameterSteps obj special l args).map (Step.replace s n) =
      parameterSteps obj special (l.replace s n) args := by
  have hsupplied : ∀ p ∈ l.parameters, s ∉ suppliedP p.2 := by
    simpa [LambdaList.suppliedPs] using h
  have hoptional : ∀ p ∈ l.optional, s ∉ suppliedP p.init := fun p hp =>
    hsupplied (p.var, p.init) (by
      simp only [LambdaList.parameters, List.mem_append, List.mem_map]
      exact .inl (.inl (.inr ⟨p, hp, rfl⟩)))
  have hkeys : ∀ p ∈ l.keys, s ∉ suppliedP p.init := fun p hp =>
    hsupplied (p.var, p.init) (by
      simp only [LambdaList.parameters, List.mem_append, List.mem_map]
      exact .inr ⟨p, hp, rfl⟩)
  have hrest (f : Name Symbol → Step Symbol Form Value)
      (hf : ∀ name, (f name).replace s n = f (replaceName s n name)) :
      (l.rest.toList.map f).map (Step.replace s n) =
        (l.rest.map (replaceName s n)).toList.map f := by
    cases l.rest <;> simp [hf]
  unfold parameterSteps
  simp only [List.map_append, List.map_cons, List.map_nil, requiredSteps_replace,
    optionalSteps_replace n hoptional, keySteps_replace n hkeys hatom, Step.replace,
    keys_replace, checkKeywords_replace n hatom]
  rw [hrest _ fun name => by
    by_cases hname : name = .source s <;> simp [Step.replace, replaceName, hname, Name.isSpecial]]
  simp [checkArity, checkOdd, LambdaList.replace]

end Steps

end Replace

/-! ## The kinds of the parameters -/

section Congr

variable {obj : Objects Symbol Value Exit} {special special' : Symbol → Bool}

/-- The two kinds of a parameter are the same, and those of its supplied-p variable. -/
def SameKinds (special special' : Symbol → Bool)
    (p : Name Symbol × Option (Initform Symbol Form)) : Prop :=
  p.1.isSpecial special = p.1.isSpecial special' ∧ ∀ s ∈ suppliedP p.2, special s = special' s

variable {name : Name Symbol} {init : Option (Initform Symbol Form)}

theorem map_supplied_congr {names : List Symbol} (h : ∀ s ∈ names, special s = special' s)
    (value : Value) :
    (names.map fun s => (.bind (special s) (.source s) value : Step Symbol Form Value)) =
      names.map fun s => .bind (special' s) (.source s) value :=
  List.map_congr_left fun s hs => by rw [h s hs]

theorem suppliedSteps_congr (h : SameKinds special special' (name, init)) (value : Value) :
    suppliedSteps obj special name init value = suppliedSteps obj special' name init value := by
  rw [suppliedSteps, suppliedSteps, h.1, map_supplied_congr h.2]

theorem missingSteps_congr (h : SameKinds special special' (name, init)) :
    missingSteps obj special name init = missingSteps obj special' name init := by
  unfold missingSteps
  rw [h.1, map_supplied_congr h.2]

theorem requiredSteps_congr {names : List (Name Symbol)}
    (h : ∀ name ∈ names, name.isSpecial special = name.isSpecial special')
    (args : List Value) :
    (requiredSteps obj special names args : List (Step Symbol Form Value)) =
      requiredSteps obj special' names args := by
  induction names generalizing args with
  | nil => rfl
  | cons name names ih =>
    obtain ⟨hname, hnames⟩ := List.forall_mem_cons.1 h
    rw [requiredSteps, requiredSteps, ih hnames, hname]

theorem optionalSteps_congr {ps : List (OptionalParameter Symbol Form (Name Symbol))}
    (h : ∀ p ∈ ps, SameKinds special special' (p.var, p.init)) (args : List Value) :
    optionalSteps obj special ps args = optionalSteps obj special' ps args := by
  induction ps generalizing args with
  | nil => rfl
  | cons p ps ih =>
    obtain ⟨hp, hps⟩ := List.forall_mem_cons.1 h
    cases args with
    | nil => rw [optionalSteps, optionalSteps, ih hps, missingSteps_congr hp]
    | cons arg args => rw [optionalSteps, optionalSteps, ih hps, suppliedSteps_congr hp]

variable [DecidableEq Value]

theorem keySteps_congr {ps : List (KeyParameter Symbol Form (Name Symbol))}
    (h : ∀ p ∈ ps, SameKinds special special' (p.var, p.init)) (args : List Value) :
    keySteps obj special ps args = keySteps obj special' ps args := by
  induction ps with
  | nil => rfl
  | cons p ps ih =>
    obtain ⟨hp, hps⟩ := List.forall_mem_cons.1 h
    have ih := ih hps
    rw [keySteps, keySteps] at ih
    rw [keySteps, keySteps, List.flatMap_cons, List.flatMap_cons, ih]
    congr 1
    split
    · exact suppliedSteps_congr hp _
    · exact missingSteps_congr hp

theorem parameterSteps_congr {l : LambdaList Symbol Form (Name Symbol)}
    (h : ∀ s ∈ l.bound, special s = special' s) (args : List Value) :
    parameterSteps obj special l args = parameterSteps obj special' l args := by
  have hsame : ∀ p ∈ l.parameters, SameKinds special special' p := fun p hp => by
    refine ⟨?_, fun s hs => h s (mem_bound.2 (.inr (List.mem_flatMap.2 ⟨p, hp, hs⟩)))⟩
    cases hname : p.1 with
    | source s => exact h s (mem_bound.2 (.inl (List.mem_map.2 ⟨p, hp, hname⟩)))
    | gensym n => rfl
  simp only [LambdaList.parameters, List.mem_append, List.mem_map] at hsame
  have hrest : (l.rest.toList.map fun name => (.bind (name.isSpecial special) name
      (obj.list (args.drop (l.required.length + l.optional.length))) : Step Symbol Form Value)) =
      l.rest.toList.map fun name => .bind (name.isSpecial special') name
        (obj.list (args.drop (l.required.length + l.optional.length))) :=
    List.map_congr_left fun name hname => by
      rw [(hsame (name, none) (.inl (.inr ⟨name, hname, rfl⟩))).1]
  simp only [parameterSteps]
  rw [requiredSteps_congr fun name hname =>
      (hsame (name, none) (.inl (.inl (.inl ⟨name, hname, rfl⟩)))).1,
    optionalSteps_congr fun p hp => hsame (p.var, p.init) (.inl (.inl (.inr ⟨p, hp, rfl⟩))),
    keySteps_congr fun p hp => hsame (p.var, p.init) (.inr ⟨p, hp, rfl⟩), hrest]

end Congr

/-! ## The shape of the steps -/

/-- The steps of a list of parameters. When the call is minimal, no parameter with an initform gets
an argument; the checks are in `C`. -/
inductive Shape (obj : Objects Symbol Value Exit) (special : Symbol → Bool) (minimal : Bool)
    (C : Option Problem → Prop) :
    List (Name Symbol × Option (Initform Symbol Form)) → List (Step Symbol Form Value) → Prop
  | nil : Shape obj special minimal C [] []
  | check {ps steps} (problem : Option Problem) (hproblem : C problem)
    (h : Shape obj special minimal C ps steps) :
    Shape obj special minimal C ps (.check problem :: steps)
  | supplied {ps steps} (name : Name Symbol) (init : Option (Initform Symbol Form)) (value : Value)
    (hinit : minimal = true → init = none) (h : Shape obj special minimal C ps steps) :
    Shape obj special minimal C ((name, init) :: ps)
      (suppliedSteps obj special name init value ++ steps)
  | missing {ps steps} (name : Name Symbol) (init : Option (Initform Symbol Form))
    (h : Shape obj special minimal C ps steps) :
    Shape obj special minimal C ((name, init) :: ps)
      (missingSteps obj special name init ++ steps)

namespace Shape

variable {obj : Objects Symbol Value Exit} {special : Symbol → Bool} {minimal : Bool}
  {C : Option Problem → Prop}
  {ps ps' : List (Name Symbol × Option (Initform Symbol Form))}
  {steps steps' : List (Step Symbol Form Value)}

theorem append (h : Shape obj special minimal C ps steps)
    (h' : Shape obj special minimal C ps' steps') :
    Shape obj special minimal C (ps ++ ps') (steps ++ steps') := by
  induction h with
  | nil => exact h'
  | check problem hproblem h ih => exact .check problem hproblem ih
  | supplied name init value hinit h ih =>
    rw [List.append_assoc]
    exact .supplied name init value hinit ih
  | missing name init h ih =>
    rw [List.append_assoc]
    exact .missing name init ih

theorem required (names : List (Name Symbol)) (args : List Value) :
    Shape obj special minimal C (names.map (·, none))
      (requiredSteps obj special names args : List (Step Symbol Form Value)) := by
  induction names generalizing args with
  | nil => exact .nil
  | cons name names ih => exact .supplied name none _ (fun _ => rfl) (ih args.tail)

theorem optional (opts : List (OptionalParameter Symbol Form (Name Symbol))) {args : List Value}
    (h : minimal = true → args = []) :
    Shape obj special minimal C (opts.map fun p => (p.var, p.init))
      (optionalSteps obj special opts args) := by
  induction opts generalizing args with
  | nil => exact .nil
  | cons p ps ih =>
    cases args with
    | nil => exact .missing _ _ (ih fun _ => rfl)
    | cons arg args =>
      have hminimal : minimal = false := Bool.eq_false_iff.2 fun hm => by simpa using h hm
      exact .supplied _ _ arg (by simp [hminimal]) (ih (by simp [hminimal]))

variable [DecidableEq Value]

theorem key (keys : List (KeyParameter Symbol Form (Name Symbol))) {args : List Value}
    (h : minimal = true → args = []) :
    Shape obj special minimal C (keys.map fun p => (p.var, p.init))
      (keySteps obj special keys args) := by
  induction keys with
  | nil => exact .nil
  | cons p ps ih =>
    rw [keySteps, List.flatMap_cons, List.map_cons]
    split
    · next value hvalue =>
      refine .supplied _ _ value (fun hm => ?_) ih
      rw [h hm] at hvalue
      cases hvalue
    · exact .missing _ _ ih

theorem parameterSteps (l : LambdaList Symbol Form (Name Symbol)) {args : List Value}
    (h : minimal = true → args.length ≤ l.required.length) (harity : C (checkArity l args))
    (hodd : C (checkOdd l (args.drop (l.required.length + l.optional.length))))
    (hkeys : C (checkKeywords obj l (args.drop (l.required.length + l.optional.length)))) :
    Shape obj special minimal C l.parameters (parameterSteps obj special l args) := by
  have hrest : Shape obj special minimal C (l.rest.toList.map (·, none))
      (l.rest.toList.map fun name => (.bind (name.isSpecial special) name
        (obj.list (args.drop (l.required.length + l.optional.length))) :
          Step Symbol Form Value)) := by
    cases l.rest with
    | none => exact .nil
    | some name => exact .supplied name none _ (fun _ => rfl) .nil
  have hoptional : Shape obj special minimal C (l.optional.map fun p => (p.var, p.init))
      (optionalSteps obj special l.optional (args.drop l.required.length)) :=
    optional l.optional fun hm => List.drop_eq_nil_of_le (h hm)
  have hkey : Shape obj special minimal C (l.keys.map fun p => (p.var, p.init))
      (keySteps obj special l.keys (args.drop (l.required.length + l.optional.length))) :=
    key l.keys fun hm => List.drop_eq_nil_of_le (Nat.le_add_right_of_le (h hm))
  have hkey := (hkey.append (.check _ hkeys .nil)).check _ hodd
  rw [List.append_nil] at hkey
  have hall := (((required l.required args).append hoptional).append hrest).append hkey
  exact .check _ harity (by
    simpa [List.append_assoc, LambdaList.parameters] using hall)

end Shape

theorem parameterSteps_shape [DecidableEq Value] {obj : Objects Symbol Value Exit}
    {special : Symbol → Bool} (l : LambdaList Symbol Form (Name Symbol)) (args : List Value) :
    Shape obj special false (fun _ => True) l.parameters (parameterSteps obj special l args) :=
  .parameterSteps l nofun trivial trivial trivial

/-! ## Special parameters can be bound later -/

section Movable

variable {obj : Objects Symbol Value Exit} {special : Symbol → Bool} {minimal : Bool}
  {C : Option Problem → Prop} {s : Symbol} {n : ℕ}
  {ps : List (Name Symbol × Option (Initform Symbol Form))}
  {steps : List (Step Symbol Form Value)}

theorem Quiet.supplied {names : List Symbol} (hs : s ∉ names) (h : Quiet s n steps)
    (value : Value) :
    Quiet s n (names.map (fun t => .bind (special t) (.source t) value) ++ steps) := by
  induction names with
  | nil => exact h
  | cons t names ih =>
    obtain ⟨hne, hs⟩ := List.ne_and_not_mem_of_not_mem_cons hs
    exact ⟨fun ht => hne (Name.source.inj ht).symm, nofun, ih hs⟩

theorem Shape.quiet (h : Shape obj special minimal C ps steps) (hinit : ∀ p ∈ ps, p.2.isNone)
    (hs : .source s ∉ ps.map Prod.fst) (hn : .gensym n ∉ ps.map Prod.fst) : Quiet s n steps := by
  induction h with
  | nil => trivial
  | check problem _ h ih => exact ih hinit hs hn
  | supplied name init value _ h ih =>
    obtain ⟨hnone, hinits⟩ := List.forall_mem_cons.1 hinit
    obtain rfl : init = none := Option.isNone_iff_eq_none.1 hnone
    obtain ⟨hs, hss⟩ := List.ne_and_not_mem_of_not_mem_cons hs
    obtain ⟨hn, hnn⟩ := List.ne_and_not_mem_of_not_mem_cons hn
    exact ⟨Ne.symm hs, Ne.symm hn, ih hinits hss hnn⟩
  | missing name init h ih =>
    obtain ⟨hnone, hinits⟩ := List.forall_mem_cons.1 hinit
    obtain rfl : init = none := Option.isNone_iff_eq_none.1 hnone
    obtain ⟨hs, hss⟩ := List.ne_and_not_mem_of_not_mem_cons hs
    obtain ⟨hn, hnn⟩ := List.ne_and_not_mem_of_not_mem_cons hn
    exact ⟨Ne.symm hs, Ne.symm hn, ih hinits hss hnn⟩

variable [DecidableEq Symbol]

theorem Movable.supplied {names : List Symbol} (hs : s ∉ names) (h : Movable s n steps)
    (value : Value) :
    Movable s n (names.map (fun t => .bind (special t) (.source t) value) ++ steps) := by
  induction names with
  | nil => exact h
  | cons t names ih =>
    obtain ⟨hne, hs⟩ := List.ne_and_not_mem_of_not_mem_cons hs
    have hname : Name.source t ≠ .source s := fun ht => hne (Name.source.inj ht).symm
    rw [List.map_cons, List.cons_append, Movable, if_neg hname]
    exact ⟨by rintro ⟨⟩, ih hs⟩

theorem Shape.movable (h : Shape obj special minimal C ps steps) (hspecial : special s = true)
    (hmem : .source s ∈ ps.map Prod.fst) (hnodup : (ps.map Prod.fst).Nodup)
    (hsupplied : ∀ p ∈ ps, s ∉ suppliedP p.2) (hn : .gensym n ∉ ps.map Prod.fst)
    (hinit : ps.Pairwise fun p q => p.1 = .source s → q.2.isNone) : Movable s n steps := by
  induction h with
  | nil => simp at hmem
  | check problem _ h ih => exact ih hmem hnodup hsupplied hn hinit
  | @supplied ps steps name init value _ h ih =>
    obtain ⟨hname, hnodup⟩ := List.nodup_cons.1 hnodup
    obtain ⟨hsup, hsupplied⟩ := List.forall_mem_cons.1 hsupplied
    obtain ⟨hne, hnn⟩ := List.ne_and_not_mem_of_not_mem_cons hn
    obtain ⟨hlater, hinit⟩ := List.pairwise_cons.1 hinit
    rw [suppliedSteps, List.cons_append, Movable]
    by_cases heq : name = .source s
    · subst heq
      rw [if_pos rfl]
      exact ⟨hspecial, .supplied hsup (h.quiet (fun p hp => hlater p hp rfl) hname hnn) obj.t⟩
    · rw [if_neg heq]
      have hmem := (List.mem_cons.1 hmem).resolve_left (Ne.symm heq)
      exact ⟨Ne.symm hne, .supplied hsup (ih hmem hnodup hsupplied hnn hinit) obj.t⟩
  | @missing ps steps name init h ih =>
    obtain ⟨hname, hnodup⟩ := List.nodup_cons.1 hnodup
    obtain ⟨hsup, hsupplied⟩ := List.forall_mem_cons.1 hsupplied
    obtain ⟨hne, hnn⟩ := List.ne_and_not_mem_of_not_mem_cons hn
    obtain ⟨hlater, hinit⟩ := List.pairwise_cons.1 hinit
    have hrest : if name = .source s then special s = true ∧
          Quiet s n ((suppliedP init).map (fun t => .bind (special t) (.source t) obj.nil) ++ steps)
        else name ≠ .gensym n ∧
          Movable s n ((suppliedP init).map (fun t => .bind (special t) (.source t) obj.nil) ++
            steps) := by
      by_cases heq : name = .source s
      · subst heq
        rw [if_pos rfl]
        exact ⟨hspecial, .supplied hsup (h.quiet (fun p hp => hlater p hp rfl) hname hnn) obj.nil⟩
      · rw [if_neg heq]
        have hmem := (List.mem_cons.1 hmem).resolve_left (Ne.symm heq)
        exact ⟨Ne.symm hne, .supplied hsup (ih hmem hnodup hsupplied hnn hinit) obj.nil⟩
    cases init <;> by_cases heq : name = .source s <;>
      simpa [missingSteps, Movable, heq, Name.isSpecial] using hrest

end Movable

end Xcl.RewriteLambda
