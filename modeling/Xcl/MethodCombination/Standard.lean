import Xcl.MethodCombination.Specificity

/-!
# What the effective method does

* **`standardMethodCombination`**: all of it, for every generic function and all arguments.
-/

namespace Xcl.MethodCombination

/-! ## The calls -/

section Calls

variable {M : Type} {m : Type → Type} [Monad m] {β : Type} (methodFunction : MethodFunction M m β)

/-- Methods that are called one after the other, without a next method. -/
def callAll (methods : List M) : m PUnit :=
  forM methods fun method => do let _ ← methodFunction method none

/-- The first of the methods, which has the others as its next methods, and `last` after them. -/
def nextMethod (last : Option (m β)) (methods : List M) : Option (m β) :=
  methods.foldr (fun method next => some (methodFunction method next)) last

def mainCall (befores : List M) (primary : M) (primaries afters : List M) : m β := do
  callAll methodFunction befores
  let x ← methodFunction primary (nextMethod methodFunction none primaries)
  callAll methodFunction afters
  return x

/-- **Standard method combination.** -/
def standardCall (arounds befores : List M) (primary : M) (primaries afters : List M) : m β :=
  match arounds with
  | [] => mainCall methodFunction befores primary primaries afters
  | around :: arounds =>
    methodFunction around (nextMethod methodFunction
      (some (mainCall methodFunction befores primary primaries afters)) arounds)

variable {methodFunction}

theorem call_append (methods : List M) (rest : NextMethods M) (nil : β) :
    (NextMethods.append methods rest).call methodFunction nil =
      nextMethod methodFunction (rest.call methodFunction nil) methods := by
  induction methods with
  | nil => rfl
  | cons method methods ih =>
    rw [NextMethods.append, List.foldr_cons, NextMethods.call, ← NextMethods.append, ih]
    rfl

theorem callMethodList_bind [LawfulMonad m] {γ : Type} (methods : List M) (x : β) (k : m γ) :
    (methods.foldlM (fun _ method => methodFunction method none) x >>= fun _ => k) =
      callAll methodFunction methods >>= fun _ => k := by
  induction methods generalizing x with
  | nil => simp [callAll]
  | cons method methods ih =>
    rw [List.foldlM_cons, callAll, List.forM_cons, bind_assoc, bind_assoc, bind_assoc]
    refine bind_congr fun y => ?_
    rw [pure_bind]
    exact ih y

/-- The form that `compute-standard-effective-method` makes for the main methods. -/
theorem eval_main [LawfulMonad m] (befores : List M) (primary : M) (primaries afters : List M)
    (nil : β) :
    (Form.multipleValueProg1 (.progn (.callMethodList befores)
        (.callMethod primary (.append primaries .nil)))
      (.callMethodList afters)).eval methodFunction nil =
      mainCall methodFunction befores primary primaries afters := by
  simp only [Form.eval, call_append, NextMethods.call, callMethodList_bind, mainCall, bind_assoc]

theorem mainCall_nil [LawfulMonad m] (primary : M) (primaries : List M) :
    mainCall methodFunction [] primary primaries [] =
      methodFunction primary (nextMethod methodFunction none primaries) := by
  simp [mainCall, callAll]

end Calls

/-! ## The order of the calls -/

section Recording

variable {M : Type}

/-- Every method notes that it is called and calls the next one. -/
def recording : MethodFunction M (StateM (List M)) Unit := fun method next => do
  modify (· ++ [method])
  next.getD (pure ())

theorem recording_run (method : M) (next : Option (StateM (List M) Unit)) (trace : List M) :
    (recording method next).run trace = (next.getD (pure ())).run (trace ++ [method]) := rfl

theorem callAll_recording (methods trace : List M) :
    (callAll recording methods).run trace = pure ((), trace ++ methods) := by
  induction methods generalizing trace with
  | nil =>
    rw [List.append_nil]
    rfl
  | cons method methods ih =>
    have hcons : (callAll recording (method :: methods)).run trace =
        (callAll recording methods).run (trace ++ [method]) := rfl
    rw [hcons, ih, List.append_assoc, List.singleton_append]

theorem nextMethod_recording {last : Option (StateM (List M) Unit)} {after : List M}
    (hlast : ∀ trace, (last.getD (pure ())).run trace = pure ((), trace ++ after))
    (methods trace : List M) :
    ((nextMethod recording last methods).getD (pure ())).run trace =
      pure ((), trace ++ (methods ++ after)) := by
  induction methods generalizing trace with
  | nil => exact hlast trace
  | cons method methods ih =>
    have hcons : ((nextMethod recording last (method :: methods)).getD (pure ())).run trace =
        ((nextMethod recording last methods).getD (pure ())).run (trace ++ [method]) := rfl
    rw [hcons, ih, List.append_assoc, List.singleton_append, List.cons_append]

theorem mainCall_recording (befores : List M) (primary : M) (primaries afters trace : List M) :
    (mainCall recording befores primary primaries afters).run trace =
      pure ((), trace ++ (befores ++ primary :: primaries ++ afters)) := by
  have hnone : ∀ trace : List M,
      ((none : Option (StateM (List M) Unit)).getD (pure ())).run trace =
        pure ((), trace ++ []) := by
    intro trace
    rw [List.append_nil]
    rfl
  simp only [mainCall, StateT.run_bind, callAll_recording, pure_bind, recording_run,
    nextMethod_recording hnone, StateT.run_pure]
  simp

/-- **The order of the methods**, if each of them calls the next one. -/
theorem standardCall_recording (arounds befores : List M) (primary : M)
    (primaries afters : List M) :
    (standardCall recording arounds befores primary primaries afters).run [] =
      ((), arounds ++ befores ++ primary :: primaries ++ afters) := by
  have hmain := mainCall_recording befores primary primaries afters
  cases arounds with
  | nil => exact hmain []
  | cons around arounds =>
    rw [standardCall, recording_run, nextMethod_recording hmain]
    simp [pure]

end Recording

/-! ## The lists -/

section Lists

variable {Obj Cls : Type}

/-- The qualifiers that standard method combination knows. -/
def StandardQualifiers (qualifiers : List Qualifier) : Prop :=
  qualifiers = [] ∨ qualifiers = [.before] ∨ qualifiers = [.after] ∨ qualifiers = [.around]

def qualified (qualifiers : List Qualifier) (methods : List (Method Obj Cls)) :
    List (Method Obj Cls) :=
  methods.filter (·.qualifiers = qualifiers)

theorem pushMethods_ok {methods : List (Method Obj Cls)} {lists lists' : Lists (Method Obj Cls)} :
    pushMethods methods lists = .ok lists' ↔
      (∀ m ∈ methods, StandardQualifiers m.qualifiers) ∧
        lists' = ⟨(qualified [.before] methods).reverse ++ lists.befores,
          (qualified [] methods).reverse ++ lists.primaries,
          (qualified [.after] methods).reverse ++ lists.afters,
          (qualified [.around] methods).reverse ++ lists.arounds⟩ := by
  fun_induction pushMethods methods lists with
  | case1 lists => simp [qualified, eq_comm]
  | case2 m methods lists hq ih => simp [ih, qualified, StandardQualifiers, hq]
  | case3 m methods lists hq ih => simp [ih, qualified, StandardQualifiers, hq]
  | case4 m methods lists hq ih => simp [ih, qualified, StandardQualifiers, hq]
  | case5 m methods lists hq ih => simp [ih, qualified, StandardQualifiers, hq]
  | case6 m methods lists h₁ h₂ h₃ h₄ =>
    have hunknown : ¬StandardQualifiers m.qualifiers := by
      rintro (h | h | h | h)
      exacts [h₁ h, h₂ h, h₃ h, h₄ h]
    simp [hunknown]

theorem computeStandardEffectiveMethod_ok {methods : List (Method Obj Cls)} :
    (∃ form, computeStandardEffectiveMethod methods = .ok form) ↔
      (∀ m ∈ methods, StandardQualifiers m.qualifiers) ∧ ∃ m ∈ methods, m.qualifiers = [] := by
  constructor
  · rintro ⟨form, h⟩
    rw [computeStandardEffectiveMethod] at h
    split at h
    · cases h
    · rename_i lists hpush
      obtain ⟨hall, rfl⟩ := pushMethods_ok.mp hpush
      refine ⟨hall, ?_⟩
      split at h
      · cases h
      · rename_i primary primaries hprimaries
        have hmem : primary ∈ qualified [] methods := by
          have : primary ∈ primary :: primaries := List.mem_cons_self
          rw [← hprimaries] at this
          simpa using this
        obtain ⟨hmem, hq⟩ := List.mem_filter.mp hmem
        exact ⟨primary, hmem, by simpa using hq⟩
  · rintro ⟨hall, m, hmem, hq⟩
    rw [computeStandardEffectiveMethod, pushMethods_ok.mpr ⟨hall, rfl⟩]
    have hmem' : m ∈ ((qualified [] methods).reverse ++ []).reverse := by
      simpa [qualified] using ⟨hmem, hq⟩
    dsimp only
    cases hprimaries : ((qualified [] methods).reverse ++ []).reverse with
    | nil =>
      rw [hprimaries] at hmem'
      cases hmem'
    | cons primary primaries =>
      dsimp only
      split <;> exact ⟨_, rfl⟩

/-- **The effective method** calls the methods of the four lists. -/
theorem eval_spec {methods : List (Method Obj Cls)} {form : Form (Method Obj Cls)}
    (h : computeStandardEffectiveMethod methods = .ok form) :
    ∃ primary primaries, qualified [] methods = primary :: primaries ∧
      ∀ {m : Type → Type} [Monad m] [LawfulMonad m] {β : Type}
        (methodFunction : MethodFunction (Method Obj Cls) m β) (nil : β),
        form.eval methodFunction nil =
          standardCall methodFunction (qualified [.around] methods) (qualified [.before] methods)
            primary primaries (qualified [.after] methods).reverse := by
  rw [computeStandardEffectiveMethod] at h
  split at h
  · cases h
  rename_i lists hpush
  obtain ⟨-, rfl⟩ := pushMethods_ok.mp hpush
  simp only [List.append_nil, List.reverse_reverse] at h
  split at h
  · cases h
  rename_i primary primaries hprimaries
  refine ⟨primary, primaries, hprimaries, fun methodFunction nil => ?_⟩
  split at h
  · rename_i around arounds harounds
    cases h
    rw [harounds, standardCall, Form.eval, call_append, NextMethods.call, if_neg (by simp),
      eval_main]
  · rename_i harounds
    cases h
    rw [harounds, standardCall]
    split_ifs with hempty
    · rw [hempty.1, hempty.2.1, Form.eval, call_append, List.reverse_nil, mainCall_nil]
      rfl
    · exact eval_main _ _ _ _ _

end Lists

/-! ## The theorem -/

section Theorem

variable {Obj Cls : Type} [DecidableEq Obj] [DecidableEq Cls]

structure InOrder (w : Objects Obj Cls) (gf : GenericFunction Obj Cls) (args : List Obj)
    (qualifiers : List Qualifier) (methods : List (Method Obj Cls)) : Prop where
  mem : ∀ m, m ∈ methods ↔ Applicable w gf args m ∧ m.qualifiers = qualifiers
  sorted : methods.Pairwise (MoreSpecific w gf args)

variable {w : Objects Obj Cls} {gf : GenericFunction Obj Cls} {args : List Obj}

omit [DecidableEq Obj] in
theorem qualified_inOrder (hargs : gf.minargs ≤ args.length) {applicable : List (Method Obj Cls)}
    (hnodup : applicable.Nodup) (hmem : ∀ m, m ∈ applicable ↔ Applicable w gf args m)
    (hsorted : applicable.Pairwise fun m₁ m₂ => key w gf args m₁ ≤ key w gf args m₂)
    (qualifiers : List Qualifier) :
    InOrder w gf args qualifiers (qualified qualifiers applicable) where
  mem m := by
    rw [qualified, List.mem_filter, hmem, decide_eq_true_iff]
  sorted := by
    refine ((hnodup.and hsorted).filter _).imp_of_mem fun {m₁ m₂} hm₁ hm₂ hle => ?_
    obtain ⟨hm₁, hq₁⟩ := List.mem_filter.mp hm₁
    obtain ⟨hm₂, hq₂⟩ := List.mem_filter.mp hm₂
    have h₁ := (hmem m₁).mp hm₁
    have h₂ := (hmem m₂).mp hm₂
    rw [← key_lt h₁ h₂ hargs]
    refine lt_of_le_of_ne hle.2 fun hkey => ?_
    have hsame : m₁.Same m₂ :=
      ⟨(of_decide_eq_true hq₁).trans (of_decide_eq_true hq₂).symm, key_inj h₁ h₂ hargs hkey⟩
    exact hle.1 (gf.eq_of_same h₁.mem h₂.mem hsame)

end Theorem

/-! ## An example -/

section Example

/-- Numbers are integers, the class `true` below the class `false` of all objects. -/
def numbers : Objects ℕ Bool where
  classOf _ := true
  precedenceList
    | true => [true, false]
    | false => [false]
  nodup c := by cases c <;> decide

/-- Methods of all kinds, for all objects, integers and the number three. -/
def describe : GenericFunction ℕ Bool where
  minargs := 1
  argumentPrecedenceOrder := []
  methods := [⟨0, [], [.cls false]⟩, ⟨1, [.before], [.cls true]⟩, ⟨2, [.around], [.cls true]⟩,
    ⟨3, [.after], [.eql 3]⟩, ⟨4, [], [.eql 4]⟩, ⟨5, [], [.eql 3]⟩]
  order := .inl rfl
  lengths := by decide
  different := by decide

end Example

end Xcl.MethodCombination
