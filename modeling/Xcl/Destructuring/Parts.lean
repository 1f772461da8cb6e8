import Xcl.Destructuring.Phases

/-!
# Parts of lambda lists

* `LambdaList.Early`: no supplied-p variable is used before its place in the lambda list.
-/

namespace Xcl.Destructuring

/-! ## Variables -/

def Init.vars : Init → List String
  | .form _ vars => vars
  | _ => []

/-- The variables that `&AUX` binds or mentions. -/
def auxUses (auxs : List (String × Init)) : List String :=
  auxs.flatMap fun aux => aux.1 :: aux.2.vars

mutual

/-- The variables that a part of a lambda list binds or mentions. -/
def Target.uses : Target → List String
  | .symbol name => [name]
  | .nested list => list.uses

def LambdaList.uses : LambdaList → List String
  | .whole target rest => target.uses ++ rest.uses
  | .plain rest => rest.uses

def Required.uses : Required → List String
  | .cons target rest => target.uses ++ rest.uses
  | .optionals rest => rest.uses

def Optionals.uses : Optionals → List String
  | .var name rest => name :: rest.uses
  | .cons target init suppliedVar rest =>
    init.vars ++ target.uses ++ suppliedVar.toList ++ rest.uses
  | .tail rest => rest.uses

def Tail.uses : Tail → List String
  | .dotted name => [name]
  | .rest target keys => target.uses ++ keys.uses
  | .noRest keys => keys.uses

def KeyPart.uses : KeyPart → List String
  | .key keys => keys.uses
  | .noKey auxs => auxUses auxs

def Keys.uses : Keys → List String
  | .var _ name rest => name :: rest.uses
  | .cons _ target init suppliedVar rest =>
    init.vars ++ target.uses ++ suppliedVar.toList ++ rest.uses
  | .done _ auxs => auxUses auxs

end

mutual

/-- The supplied-p variables of a part of a lambda list. -/
def Target.suppliedVars : Target → List String
  | .symbol _ => []
  | .nested list => list.suppliedVars

def LambdaList.suppliedVars : LambdaList → List String
  | .whole target rest => target.suppliedVars ++ rest.suppliedVars
  | .plain rest => rest.suppliedVars

def Required.suppliedVars : Required → List String
  | .cons target rest => target.suppliedVars ++ rest.suppliedVars
  | .optionals rest => rest.suppliedVars

def Optionals.suppliedVars : Optionals → List String
  | .var _ rest => rest.suppliedVars
  | .cons target _ suppliedVar rest =>
    suppliedVar.toList ++ target.suppliedVars ++ rest.suppliedVars
  | .tail rest => rest.suppliedVars

def Tail.suppliedVars : Tail → List String
  | .dotted _ => []
  | .rest target keys => target.suppliedVars ++ keys.suppliedVars
  | .noRest keys => keys.suppliedVars

def KeyPart.suppliedVars : KeyPart → List String
  | .key keys => keys.suppliedVars
  | .noKey _ => []

def Keys.suppliedVars : Keys → List String
  | .var _ _ rest => rest.suppliedVars
  | .cons _ target _ suppliedVar rest =>
    suppliedVar.toList ++ target.suppliedVars ++ rest.suppliedVars
  | .done _ _ => []

end

/-- No variable of the second list is in the first. -/
def Apart (uses later : List String) : Prop := ∀ x ∈ later, x ∉ uses

mutual

/-- No supplied-p variable is used before its place in the lambda list. -/
def Target.Early : Target → Prop
  | .symbol _ => True
  | .nested list => list.Early

def LambdaList.Early : LambdaList → Prop
  | .whole target rest => target.Early ∧ rest.Early ∧ Apart target.uses rest.suppliedVars
  | .plain rest => rest.Early

def Required.Early : Required → Prop
  | .cons target rest => target.Early ∧ rest.Early ∧ Apart target.uses rest.suppliedVars
  | .optionals rest => rest.Early

def Optionals.Early : Optionals → Prop
  | .var name rest => rest.Early ∧ Apart [name] rest.suppliedVars
  | .cons target init suppliedVar rest =>
    target.Early ∧ rest.Early ∧ Apart (init.vars ++ target.uses) suppliedVar.toList ∧
      Apart (init.vars ++ target.uses ++ suppliedVar.toList) rest.suppliedVars
  | .tail rest => rest.Early

def Tail.Early : Tail → Prop
  | .dotted _ => True
  | .rest target keys => target.Early ∧ keys.Early ∧ Apart target.uses keys.suppliedVars
  | .noRest keys => keys.Early

def KeyPart.Early : KeyPart → Prop
  | .key keys => keys.Early
  | .noKey _ => True

def Keys.Early : Keys → Prop
  | .var _ name rest => rest.Early ∧ Apart [name] rest.suppliedVars
  | .cons _ target init suppliedVar rest =>
    target.Early ∧ rest.Early ∧ Apart (init.vars ++ target.uses) suppliedVar.toList ∧
      Apart (init.vars ++ target.uses ++ suppliedVar.toList) rest.suppliedVars
  | .done _ _ => True

end

mutual

theorem Target.suppliedVars_uses : ∀ (t : Target) {x : String}, x ∈ t.suppliedVars → x ∈ t.uses
  | .symbol _, _, h => by cases h
  | .nested list, _, h => LambdaList.suppliedVars_uses list h

theorem LambdaList.suppliedVars_uses : ∀ (l : LambdaList) {x : String}, x ∈ l.suppliedVars →
    x ∈ l.uses
  | .whole target rest, _, h => by
    rw [LambdaList.suppliedVars, List.mem_append] at h
    rw [LambdaList.uses, List.mem_append]
    exact h.imp (Target.suppliedVars_uses target) (Required.suppliedVars_uses rest)
  | .plain rest, _, h => Required.suppliedVars_uses rest h

theorem Required.suppliedVars_uses : ∀ (r : Required) {x : String}, x ∈ r.suppliedVars →
    x ∈ r.uses
  | .cons target rest, _, h => by
    rw [Required.suppliedVars, List.mem_append] at h
    rw [Required.uses, List.mem_append]
    exact h.imp (Target.suppliedVars_uses target) (Required.suppliedVars_uses rest)
  | .optionals rest, _, h => Optionals.suppliedVars_uses rest h

theorem Optionals.suppliedVars_uses : ∀ (o : Optionals) {x : String}, x ∈ o.suppliedVars →
    x ∈ o.uses
  | .var _ rest, _, h => List.mem_cons_of_mem _ (Optionals.suppliedVars_uses rest h)
  | .cons target _ _ rest, x, h => by
    rw [Optionals.suppliedVars, List.mem_append, List.mem_append] at h
    rw [Optionals.uses, List.mem_append, List.mem_append, List.mem_append]
    rcases h with (h | h) | h
    · exact Or.inl (Or.inr h)
    · exact Or.inl (Or.inl (Or.inr (Target.suppliedVars_uses target h)))
    · exact Or.inr (Optionals.suppliedVars_uses rest h)
  | .tail rest, _, h => Tail.suppliedVars_uses rest h

theorem Tail.suppliedVars_uses : ∀ (t : Tail) {x : String}, x ∈ t.suppliedVars → x ∈ t.uses
  | .dotted _, _, h => by cases h
  | .rest target keys, _, h => by
    rw [Tail.suppliedVars, List.mem_append] at h
    rw [Tail.uses, List.mem_append]
    exact h.imp (Target.suppliedVars_uses target) (KeyPart.suppliedVars_uses keys)
  | .noRest keys, _, h => KeyPart.suppliedVars_uses keys h

theorem KeyPart.suppliedVars_uses : ∀ (k : KeyPart) {x : String}, x ∈ k.suppliedVars → x ∈ k.uses
  | .key keys, _, h => Keys.suppliedVars_uses keys h
  | .noKey _, _, h => by cases h

theorem Keys.suppliedVars_uses : ∀ (k : Keys) {x : String}, x ∈ k.suppliedVars → x ∈ k.uses
  | .var _ _ rest, _, h => List.mem_cons_of_mem _ (Keys.suppliedVars_uses rest h)
  | .cons _ target _ _ rest, x, h => by
    rw [Keys.suppliedVars, List.mem_append, List.mem_append] at h
    rw [Keys.uses, List.mem_append, List.mem_append, List.mem_append]
    rcases h with (h | h) | h
    · exact Or.inl (Or.inr h)
    · exact Or.inl (Or.inl (Or.inr (Target.suppliedVars_uses target h)))
    · exact Or.inr (Keys.suppliedVars_uses rest h)
  | .done _ _, _, h => by cases h

end

/-! ## What a binder does not touch -/

section Run

variable {σ : Type} {I : Interp σ}

theorem frames_assign {name x : String} (h : x ≠ name) (v : Value) :
    Frames (assign (σ := σ) name v) x := by
  intro u U s
  show some (Function.update (Function.update U x u) name v, s) =
    some (Function.update (Function.update U name v) x u, s)
  rw [Function.update_comm h]

theorem frames_some (x : String) : Frames (some : Binder σ) x := fun _ _ _ => rfl

theorem frames_none (x : String) : Frames (fun _ => none : Binder σ) x := fun _ _ _ => rfl

theorem frames_assignSupplied {suppliedVar : Option String} {x : String}
    (h : x ∉ suppliedVar.toList) (v : Value) :
    Frames (assignSupplied (σ := σ) v suppliedVar) x := by
  cases suppliedVar with
  | none => exact frames_some x
  | some name => exact frames_assign (fun hx => h (by rw [hx]; exact List.mem_singleton_self _)) v

theorem evalInit_update {init : Init} {x : String} (h : x ∉ init.vars) (v : Value)
    (U : String → Value) (s : σ) :
    evalInit I (Function.update U x v) s init = evalInit I U s init := by
  cases init with
  | absent => rfl
  | constant value => rfl
  | form i vars =>
    show I i (vars.map (Function.update U x v)) s = I i (vars.map U) s
    have hne : ∀ y ∈ vars, y ≠ x := by
      intro y hy hyx
      rw [hyx] at hy
      exact h hy
    rw [List.map_congr_left fun y hy => Function.update_of_ne (hne y hy) v U]

theorem frames_assignInit {name x : String} {init : Init} (hname : x ≠ name)
    (hinit : x ∉ init.vars) : Frames (assignInit I name init) x := by
  intro v U s
  show some (Function.update (Function.update U x v) name _, _) =
    some (Function.update (Function.update U name _) x v, _)
  rw [evalInit_update hinit, Function.update_comm hname]

theorem frames_bindAuxs {x : String} : ∀ {auxs : List (String × Init)}, x ∉ auxUses auxs →
    Frames (bindAuxs I auxs) x
  | [], _ => frames_some x
  | (name, init) :: auxs, h => by
    rw [auxUses, List.flatMap_cons, List.mem_append, not_or, List.mem_cons, not_or] at h
    exact Frames.bind (frames_assignInit h.1.1 h.1.2) (frames_bindAuxs h.2)

theorem frames_bindGiven {given : Option Value} {init : Init} {target : Value → Binder σ}
    {suppliedVar : Option String} {x : String} (htarget : ∀ v, Frames (target v) x)
    (hinit : x ∉ init.vars) (hsupplied : x ∉ suppliedVar.toList) :
    Frames (bindGiven I given init target suppliedVar) x := by
  cases given with
  | some v => exact Frames.bind (htarget v) (frames_assignSupplied hsupplied .t)
  | none =>
    intro v U s
    unfold bindGiven
    simp only
    rw [evalInit_update hinit]
    exact Frames.bind (htarget (evalInit I U s init).1) (frames_assignSupplied hsupplied .nil) v U
      (evalInit I U s init).2

mutual

theorem frames_bindTarget {x : String} : ∀ (t : Target) (v : Value), x ∉ t.uses →
    Frames (bindTarget I t v) x
  | .symbol name, v, h => by
    rw [bindTarget]
    exact frames_assign (fun hx => h (by rw [hx]; exact List.mem_singleton_self _)) v
  | .nested list, v, h => by
    rw [bindTarget]
    cases hv : listp v with
    | true =>
      simp only [if_true]
      exact frames_bindLambdaList list v v h
    | false =>
      simp only [Bool.false_eq_true, if_false]
      exact frames_none x

theorem frames_bindLambdaList {x : String} : ∀ (l : LambdaList) (whole args : Value),
    x ∉ l.uses → Frames (bindLambdaList I l whole args) x
  | .whole target rest, whole, args, h => by
    rw [LambdaList.uses, List.mem_append, not_or] at h
    rw [bindLambdaList]
    exact Frames.bind (frames_bindTarget target whole h.1) (frames_bindRequired rest args h.2)
  | .plain rest, whole, args, h => by
    rw [bindLambdaList]
    exact frames_bindRequired rest args h

theorem frames_bindRequired {x : String} : ∀ (r : Required) (args : Value), x ∉ r.uses →
    Frames (bindRequired I r args) x
  | .cons target rest, args, h => by
    rw [Required.uses, List.mem_append, not_or] at h
    cases args with
    | cons a args =>
      rw [bindRequired]
      exact Frames.bind (frames_bindTarget target a h.1) (frames_bindRequired rest args h.2)
    | nil => exact frames_none x
    | t => exact frames_none x
    | atom _ => exact frames_none x
  | .optionals rest, args, h => by
    rw [bindRequired]
    exact frames_bindOptionals rest args h

theorem frames_bindOptionals {x : String} : ∀ (o : Optionals) (args : Value), x ∉ o.uses →
    Frames (bindOptionals I o args) x
  | .var name rest, args, h => by
    rw [Optionals.uses, List.mem_cons, not_or] at h
    cases args with
    | cons a args =>
      rw [bindOptionals]
      exact Frames.bind (frames_assign h.1 a) (frames_bindOptionals rest args h.2)
    | nil =>
      rw [bindOptionals]
      exact Frames.bind (frames_assign h.1 .nil) (frames_bindOptionals rest .nil h.2)
    | t => exact frames_none x
    | atom _ => exact frames_none x
  | .cons target init suppliedVar rest, args, h => by
    rw [Optionals.uses, List.mem_append, List.mem_append, List.mem_append, not_or, not_or,
      not_or] at h
    obtain ⟨⟨⟨hinit, htarget⟩, hsupplied⟩, hrest⟩ := h
    cases args with
    | cons a args =>
      rw [bindOptionals]
      exact Frames.bind (frames_bindGiven (fun v => frames_bindTarget target v htarget) hinit
        hsupplied) (frames_bindOptionals rest args hrest)
    | nil =>
      rw [bindOptionals]
      exact Frames.bind (frames_bindGiven (fun v => frames_bindTarget target v htarget) hinit
        hsupplied) (frames_bindOptionals rest .nil hrest)
    | t => exact frames_none x
    | atom _ => exact frames_none x
  | .tail rest, args, h => by
    rw [bindOptionals]
    exact frames_bindTail rest args h

theorem frames_bindTail {x : String} : ∀ (t : Tail) (args : Value), x ∉ t.uses →
    Frames (bindTail I t args) x
  | .dotted name, args, h => by
    rw [bindTail]
    exact frames_assign (fun hx => h (by rw [hx]; exact List.mem_singleton_self _)) args
  | .rest target keys, args, h => by
    rw [Tail.uses, List.mem_append, not_or] at h
    rw [bindTail]
    exact Frames.bind (frames_bindTarget target args h.1) (frames_bindKeyPart keys true args h.2)
  | .noRest keys, args, h => by
    rw [bindTail]
    exact frames_bindKeyPart keys false args h

theorem frames_bindKeyPart {x : String} : ∀ (k : KeyPart) (restp : Bool) (args : Value),
    x ∉ k.uses → Frames (bindKeyPart I k restp args) x
  | .key keys, restp, args, h => by
    rw [bindKeyPart]
    split
    · exact frames_bindKeys keys args h
    · exact frames_none x
  | .noKey auxs, restp, args, h => by
    rw [bindKeyPart]
    split
    · exact frames_bindAuxs h
    · exact frames_none x

theorem frames_bindKeys {x : String} : ∀ (k : Keys) (args : Value), x ∉ k.uses →
    Frames (bindKeys I k args) x
  | .var keyword name rest, args, h => by
    rw [Keys.uses, List.mem_cons, not_or] at h
    rw [bindKeys]
    exact Frames.bind (frames_assign h.1 _) (frames_bindKeys rest args h.2)
  | .cons keyword target init suppliedVar rest, args, h => by
    rw [Keys.uses, List.mem_append, List.mem_append, List.mem_append, not_or, not_or,
      not_or] at h
    obtain ⟨⟨⟨hinit, htarget⟩, hsupplied⟩, hrest⟩ := h
    rw [bindKeys]
    exact Frames.bind (frames_bindGiven (fun v => frames_bindTarget target v htarget) hinit
      hsupplied) (frames_bindKeys rest args hrest)
  | .done _ auxs, args, h => by
    rw [bindKeys]
    exact frames_bindAuxs h

end

/-! ## New variables of the code -/

theorem above_system (n : ℕ) (code : Code) :
    Above n (Output.system (n + 1) (.gensym n) code) [] := by
  refine ⟨Nat.le_succ n, fun b hb => ?_⟩
  rw [List.mem_singleton.mp hb]
  exact ⟨fun g hg => Nat.le_of_eq (Name.gensym.inj hg), fun x hx => (by cases hx)⟩

theorem above_user (n : ℕ) (name : String) (code : Code) :
    Above n (Output.user n name code) [] :=
  ⟨le_rfl, fun _ hb => (by cases hb)⟩

theorem above_supplied (n : ℕ) (suppliedVar : Option String) (code : Code) :
    Above n (Output.system (suppliedNext n suppliedVar) (suppliedName n suppliedVar) code)
      suppliedVar.toList := by
  cases suppliedVar with
  | none => exact above_system n code
  | some name =>
    refine ⟨le_rfl, fun b hb => ?_⟩
    rw [List.mem_singleton.mp hb]
    refine ⟨fun g hg => (by cases hg), fun x hx => ?_⟩
    rw [Name.user.inj hx]
    exact List.mem_singleton_self x

mutual

theorem above_parseTarget (code : Code) (n : ℕ) : ∀ t : Target,
    Above n (parseTarget code n t) t.suppliedVars
  | .symbol name => by
    rw [parseTarget]
    exact above_user n name code
  | .nested list => by
    rw [parseTarget]
    exact (above_system n _).append (above_parseDefmacroLambdaList n ⟨n, 0⟩ (n + 1) list)

theorem above_parseDefmacroLambdaList (argListName : ℕ) (path : Path) (n : ℕ) :
    ∀ l : LambdaList, Above n (parseDefmacroLambdaList argListName path n l) l.suppliedVars
  | .whole target rest => by
    rw [parseDefmacroLambdaList]
    exact (above_parseTarget _ n target).append (above_parseRequired path 0 path _ rest)
  | .plain rest => by
    rw [parseDefmacroLambdaList]
    exact above_parseRequired path 0 path n rest

theorem above_parseRequired (path0 : Path) (minimum : ℕ) (path : Path) (n : ℕ) :
    ∀ r : Required, Above n (parseRequired path0 minimum path n r) r.suppliedVars
  | .cons target rest => by
    rw [parseRequired]
    exact (above_parseTarget _ n target).append (above_parseRequired path0 _ _ _ rest)
  | .optionals rest => by
    rw [parseRequired]
    exact above_parseOptionals path0 minimum minimum path n rest

theorem above_parseOptionals (path0 : Path) (minimum maximum : ℕ) (path : Path) (n : ℕ) :
    ∀ o : Optionals, Above n (parseOptionals path0 minimum maximum path n o) o.suppliedVars
  | .var name rest => by
    rw [parseOptionals]
    exact (above_user n name _).append (above_parseOptionals path0 _ _ _ _ rest)
  | .cons target init suppliedVar rest => by
    rw [parseOptionals]
    exact ((above_supplied n suppliedVar _).append (above_parseTarget _ _ target)).append
      (above_parseOptionals path0 _ _ _ _ rest)
  | .tail rest => by
    rw [parseOptionals]
    exact above_parseTail path0 minimum maximum path n rest

theorem above_parseTail (path0 : Path) (minimum maximum : ℕ) (path : Path) (n : ℕ) :
    ∀ t : Tail, Above n (parseTail path0 minimum maximum path n t) t.suppliedVars
  | .dotted name => by
    rw [parseTail]
    exact above_user n name _
  | .rest target keys => by
    rw [parseTail]
    exact (above_parseTarget _ n target).append (above_parseKeyPart path0 _ _ _ _ _ keys)
  | .noRest keys => by
    rw [parseTail]
    exact above_parseKeyPart path0 minimum maximum path false n keys

theorem above_parseKeyPart (path0 : Path) (minimum maximum : ℕ) (path : Path) (restp : Bool)
    (n : ℕ) : ∀ k : KeyPart,
    Above n (parseKeyPart path0 minimum maximum path restp n k) k.suppliedVars
  | .key keys => by
    rw [parseKeyPart]
    exact (above_system n _).append (above_parseKeys n [] (n + 1) keys)
  | .noKey auxs => by
    rw [parseKeyPart]
    exact ⟨le_rfl, fun _ hb => (by cases hb)⟩

theorem above_parseKeys (list : ℕ) (keys : List String) (n : ℕ) :
    ∀ k : Keys, Above n (parseKeys list keys n k) k.suppliedVars
  | .var keyword name rest => by
    rw [parseKeys]
    exact (above_user n name _).append (above_parseKeys list _ _ rest)
  | .cons keyword target init suppliedVar rest => by
    rw [parseKeys]
    exact ((above_supplied n suppliedVar _).append (above_parseTarget _ _ target)).append
      (above_parseKeys list _ _ rest)
  | .done _ auxs => by
    rw [parseKeys]
    exact ⟨le_rfl, fun _ hb => (by cases hb)⟩

end

/-! ## The number of arguments -/

/-- The lambda list has a `&REST`, a `&KEY` or a dotted end. -/
def KeyPart.restp : KeyPart → Bool
  | .key _ => true
  | .noKey _ => false

def Tail.restp : Tail → Bool
  | .dotted _ => true
  | .rest _ _ => true
  | .noRest keys => keys.restp

def Optionals.restp : Optionals → Bool
  | .var _ rest => rest.restp
  | .cons _ _ _ rest => rest.restp
  | .tail rest => rest.restp

def Required.restp : Required → Bool
  | .cons _ rest => rest.restp
  | .optionals rest => rest.restp

def Optionals.count : Optionals → ℕ
  | .var _ rest => rest.count + 1
  | .cons _ _ _ rest => rest.count + 1
  | .tail _ => 0

/-- The number of required parameters. -/
def Required.minimum : Required → ℕ
  | .cons _ rest => rest.minimum + 1
  | .optionals _ => 0

/-- The number of optional parameters. -/
def Required.optionalCount : Required → ℕ
  | .cons _ rest => rest.optionalCount
  | .optionals rest => rest.count

theorem argCount_mem_parseTail {path0 path : Path} {minimum maximum n : ℕ} : ∀ {t : Tail},
    t.restp = false →
    .argCount path0 minimum maximum ∈ (parseTail path0 minimum maximum path n t).argTests
  | .noRest (.noKey auxs), _ => by
    rw [parseTail, parseKeyPart]
    exact List.mem_singleton_self _

theorem argCount_mem_parseOptionals {path0 : Path} {minimum : ℕ} : ∀ {o : Optionals}
    {maximum n : ℕ} {path : Path}, o.restp = false → .argCount path0 minimum (maximum + o.count) ∈
      (parseOptionals path0 minimum maximum path n o).argTests
  | .var name rest, maximum, n, path, h => by
    rw [parseOptionals, Optionals.count, show maximum + (rest.count + 1) =
      maximum + 1 + rest.count by omega]
    exact List.mem_append_left _ (argCount_mem_parseOptionals h)
  | .cons target init suppliedVar rest, maximum, n, path, h => by
    rw [parseOptionals, Optionals.count, show maximum + (rest.count + 1) =
      maximum + 1 + rest.count by omega]
    exact List.mem_append_left _ (argCount_mem_parseOptionals h)
  | .tail rest, maximum, n, path, h => by
    rw [parseOptionals]
    exact argCount_mem_parseTail h

theorem argCount_mem_parseRequired {path0 : Path} : ∀ {r : Required} {minimum n : ℕ}
    {path : Path}, r.restp = false →
    .argCount path0 (minimum + r.minimum) (minimum + r.minimum + r.optionalCount) ∈
      (parseRequired path0 minimum path n r).argTests
  | .cons target rest, minimum, n, path, h => by
    rw [parseRequired, Required.minimum, Required.optionalCount, show minimum + (rest.minimum + 1) =
      minimum + 1 + rest.minimum by omega]
    exact List.mem_append_left _ (argCount_mem_parseRequired h)
  | .optionals rest, minimum, n, path, h => by
    rw [parseRequired, Required.minimum, Required.optionalCount, Nat.add_zero]
    exact argCount_mem_parseOptionals h

/-- The number of arguments is between bounds. -/
def CountIn (args : Value) (minimum maximum : ℕ) : Prop :=
  ∃ k, length args = some k ∧ minimum ≤ k ∧ k ≤ maximum

theorem countIn_cons {a args : Value} {minimum maximum : ℕ} :
    CountIn (.cons a args) (minimum + 1) (maximum + 1) ↔ CountIn args minimum maximum := by
  unfold CountIn
  rw [length]
  constructor
  · rintro ⟨k, hk, hmin, hmax⟩
    obtain ⟨j, hj, hjk⟩ := Option.map_eq_some_iff.mp hk
    exact ⟨j, hj, by omega, by omega⟩
  · rintro ⟨k, hk, hmin, hmax⟩
    exact ⟨k + 1, by rw [hk]; rfl, by omega, by omega⟩

theorem countIn_of_bindTail {args : Value} {x y : Bound σ} : ∀ {t : Tail}, t.restp = false →
    bindTail I t args x = some y → CountIn args 0 0
  | .noRest (.noKey auxs), _, h => by
    rw [bindTail, bindKeyPart] at h
    simp only at h
    split at h
    · rename_i hnil
      rw [Bool.false_or, decide_eq_true_iff] at hnil
      exact ⟨0, by rw [hnil]; rfl, le_rfl, le_rfl⟩
    · cases h

theorem countIn_of_bindOptionals {y : Bound σ} : ∀ {o : Optionals} {args : Value} {x : Bound σ},
    o.restp = false → bindOptionals I o args x = some y → CountIn args 0 o.count
  | .var name rest, .nil, x, hrest, h => ⟨0, rfl, le_rfl, Nat.zero_le _⟩
  | .var name rest, .cons a args, x, hrest, h => by
    rw [bindOptionals] at h
    obtain ⟨z, -, h⟩ := Option.bind_eq_some_iff.mp h
    obtain ⟨k, hk, -, hmax⟩ := countIn_of_bindOptionals (o := rest) hrest h
    exact ⟨k + 1, by rw [length, hk]; rfl, Nat.zero_le _, Nat.succ_le_succ hmax⟩
  | .cons target init suppliedVar rest, .nil, x, hrest, h => ⟨0, rfl, le_rfl, Nat.zero_le _⟩
  | .cons target init suppliedVar rest, .cons a args, x, hrest, h => by
    rw [bindOptionals] at h
    obtain ⟨z, -, h⟩ := Option.bind_eq_some_iff.mp h
    obtain ⟨k, hk, -, hmax⟩ := countIn_of_bindOptionals (o := rest) hrest h
    exact ⟨k + 1, by rw [length, hk]; rfl, Nat.zero_le _, Nat.succ_le_succ hmax⟩
  | .tail rest, args, x, hrest, h => by
    rw [bindOptionals] at h
    exact countIn_of_bindTail hrest h

theorem countIn_of_bindRequired {y : Bound σ} : ∀ {r : Required} {args : Value} {x : Bound σ},
    r.restp = false → bindRequired I r args x = some y →
    CountIn args r.minimum (r.minimum + r.optionalCount)
  | .cons target rest, .cons a args, x, hrest, h => by
    rw [bindRequired] at h
    obtain ⟨z, -, h⟩ := Option.bind_eq_some_iff.mp h
    rw [Required.minimum, Required.optionalCount,
      show rest.minimum + 1 + rest.optionalCount = rest.minimum + rest.optionalCount + 1 by omega]
    exact countIn_cons.mpr (countIn_of_bindRequired hrest h)
  | .optionals rest, args, x, hrest, h => by
    rw [bindRequired] at h
    rw [Required.minimum, Required.optionalCount, Nat.zero_add]
    exact countIn_of_bindOptionals hrest h

end Run

end Xcl.Destructuring
