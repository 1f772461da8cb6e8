import Xcl.Dispatch.Model
import Mathlib.Tactic

/-!
# The cache of effective methods

* `Op.Transparent`: the steps that leave the cached effective methods right;
* **`call_eq_uncached`**: in a run of such steps every call comes to what it would without the
  cache.
-/

namespace Xcl.Dispatch

variable {Cls : Type} [DecidableEq Cls] {gf : GenericFunction Cls}
  {precedenceList : Cls → List Cls} {s : State Cls} {m : Method Cls}
  {methods : List (Method Cls)} {classes : List Cls}

/-- The step does not reach the two places where the cache is not kept. -/
def Op.Transparent (gf : GenericFunction Cls) (s : State Cls) : Op Cls → Prop
  | .call classes => ∀ m, s.methods = [m] → s.dfun = .fast m → 1 ≤ classes.length →
    m.qualifiers = [] ∧ methodApplicableP s.precedenceList m.specializers classes = true
  | .setPrecedenceList c newList => ∀ key, s.classesToEmfTable key ≠ none →
    computeApplicableMethods (Function.update s.precedenceList c newList) gf s.methods key =
      computeApplicableMethods s.precedenceList gf s.methods key
  | .addMethod _ | .removeMethod _ => True

/-! ## The classes of the required arguments -/

theorem methodApplicableP_take {specializers : List Cls} {n : ℕ} (h : specializers.length ≤ n) :
    methodApplicableP precedenceList specializers (classes.take n) =
      methodApplicableP precedenceList specializers classes := by
  induction specializers generalizing classes n with
  | nil => simp [methodApplicableP]
  | cons specializer specializers ih =>
    cases n with
    | zero => simp at h
    | succ n =>
      cases classes with
      | nil => rfl
      | cons c classes =>
        have hle : specializers.length ≤ n := by simpa using h
        simp only [List.take_succ_cons, methodApplicableP, ih hle]

theorem computeApplicableMethods_take (h : ∀ m ∈ methods, m.specializers.length ≤ gf.minargs) :
    computeApplicableMethods precedenceList gf methods (classes.take gf.minargs) =
      computeApplicableMethods precedenceList gf methods classes := by
  have hfilter : (methods.filter fun m => methodApplicableP precedenceList m.specializers
      (classes.take gf.minargs)) =
      methods.filter fun m => methodApplicableP precedenceList m.specializers classes := by
    apply List.filter_congr
    intro m hm
    rw [methodApplicableP_take (h m hm)]
  unfold computeApplicableMethods
  rw [hfilter, List.take_take, min_self]

theorem uncached_take (h : ∀ m ∈ methods, m.specializers.length ≤ gf.minargs)
    (hlength : gf.minargs ≤ classes.length) :
    uncached gf precedenceList methods (classes.take gf.minargs) =
      uncached gf precedenceList methods classes := by
  unfold uncached
  rw [computeApplicableMethods_take h, List.length_take, min_eq_left hlength,
    if_neg (lt_irrefl _), if_neg (not_lt.2 hlength)]

theorem uncached_congr {newPrecedenceList : Cls → List Cls}
    (h : computeApplicableMethods newPrecedenceList gf methods classes =
      computeApplicableMethods precedenceList gf methods classes) :
    uncached gf newPrecedenceList methods classes = uncached gf precedenceList methods classes := by
  unfold uncached
  rw [h]

/-! ## The invariant -/

structure Valid (gf : GenericFunction Cls) (s : State Cls) : Prop where
  table : ∀ key effectiveMethod, s.classesToEmfTable key = some effectiveMethod →
    gf.minargs ≤ key.length ∧ uncached gf s.precedenceList s.methods key = .runs effectiveMethod
  dfun : s.dfun = stdComputeDiscriminatingFunction gf s.methods
  methods : ∀ m ∈ s.methods, m.specializers.length ≤ gf.minargs

theorem valid_finalize (h : ∀ m ∈ s.methods, m.specializers.length ≤ gf.minargs) :
    Valid gf (finalizeGenericFunction gf s) where
  table key effectiveMethod hkey := by cases hkey
  dfun := rfl
  methods := h

theorem valid_start : Valid gf (start gf precedenceList) := by
  apply valid_finalize
  intro m hm
  simp at hm

theorem Valid.removeMethod (h : Valid gf s) (m : Method Cls) : Valid gf (removeMethod gf s m) := by
  apply valid_finalize
  intro m' hm'
  exact h.methods m' (List.mem_of_mem_filter hm')

theorem Valid.addMethod (h : Valid gf s) (m : Method Cls) : Valid gf (addMethod gf s m) := by
  unfold Dispatch.addMethod
  split
  · exact h
  · rename_i hnew
    have hlength : m.specializers.length = gf.minargs := by
      by_contra hne
      exact hnew (Or.inr hne)
    apply valid_finalize
    intro m' hm'
    rcases List.mem_cons.1 hm' with rfl | hm'
    · exact hlength.le
    · split at hm'
      · rename_i old _
        exact (h.removeMethod old).methods m' hm'
      · exact h.methods m' hm'

theorem Valid.setPrecedenceList {c : Cls} {newList : List Cls} (h : Valid gf s)
    (hmeets : (Op.setPrecedenceList c newList).Transparent gf s) :
    Valid gf (setPrecedenceList s c newList) := by
  constructor
  · intro key effectiveMethod hkey
    obtain ⟨hlength, hruns⟩ := h.table key effectiveMethod hkey
    have hkey' : s.classesToEmfTable key = some effectiveMethod := hkey
    have hsame := hmeets key (by simp [hkey'])
    refine ⟨hlength, ?_⟩
    rw [← hruns]
    exact uncached_congr hsame
  · exact h.dfun
  · exact h.methods

/-! ## Calls -/

omit [DecidableEq Cls] in
theorem dfun_eq_fast (h : stdComputeDiscriminatingFunction gf methods = .fast m) :
    gf.methodCombination = .standard ∧ methods = [m] ∧ gf.minargs = 1 := by
  unfold stdComputeDiscriminatingFunction at h
  split at h
  · rename_i m' hcombination
    split at h
    · rename_i hfast
      cases h
      exact ⟨hcombination, rfl, hfast.1⟩
    · cases h
  · cases h

theorem uncached_singleton (hcombination : gf.methodCombination = .standard)
    (hqualifiers : m.qualifiers = []) (hlength : gf.minargs ≤ classes.length)
    (happlicable : methodApplicableP precedenceList m.specializers classes = true) :
    uncached gf precedenceList [m] classes = .runs ⟨[], [], [m], []⟩ := by
  have hmethods : computeApplicableMethods precedenceList gf [m] classes = [m] := by
    simp [computeApplicableMethods, happlicable]
  have heffective : computeEffectiveMethod gf [m] = some ⟨[], [], [m], []⟩ := by
    simp [computeEffectiveMethod, hcombination, computeStandardEffectiveMethod, hqualifiers]
  unfold uncached
  rw [if_neg (not_lt.2 hlength), hmethods]
  simp only [heffective]

theorem Valid.store {key : List Cls} {effectiveMethod : EffectiveMethod Cls} (h : Valid gf s)
    (hlength : gf.minargs ≤ key.length)
    (hresult : uncached gf s.precedenceList s.methods key = .runs effectiveMethod) :
    Valid gf { s with
      classesToEmfTable := Function.update s.classesToEmfTable key (some effectiveMethod) } := by
  constructor
  · intro key' cached hkey
    by_cases heq : key' = key
    · subst heq
      have hcached : effectiveMethod = cached := by simpa using hkey
      rw [← hcached]
      exact ⟨hlength, hresult⟩
    · exact h.table key' cached (by simpa [heq] using hkey)
  · exact h.dfun
  · exact h.methods

theorem Valid.call (h : Valid gf s) (hmeets : (Op.call classes).Transparent gf s) :
    (call gf s classes).1 = uncached gf s.precedenceList s.methods classes ∧
      Valid gf (call gf s classes).2 := by
  unfold Dispatch.call
  cases hdfun : s.dfun with
  | fast m =>
    obtain ⟨hcombination, hmethods, hminargs⟩ := dfun_eq_fast (h.dfun.symm.trans hdfun)
    dsimp only
    split
    · rename_i hlength
      refine ⟨?_, h⟩
      unfold uncached
      rw [hminargs, if_pos hlength]
    · rename_i hlength
      obtain ⟨hqualifiers, happlicable⟩ := hmeets m hmethods hdfun (not_lt.1 hlength)
      refine ⟨?_, h⟩
      rw [hmethods, uncached_singleton hcombination hqualifiers (by omega) happlicable]
  | lookup =>
    dsimp only
    split
    · rename_i hlength
      refine ⟨?_, h⟩
      unfold uncached
      rw [if_pos hlength]
    · rename_i hlength
      have htake : uncached gf s.precedenceList s.methods (classes.take gf.minargs) =
          uncached gf s.precedenceList s.methods classes :=
        uncached_take h.methods (not_lt.1 hlength)
      cases htable : s.classesToEmfTable (classes.take gf.minargs) with
      | some effectiveMethod =>
        refine ⟨?_, h⟩
        rw [← htake]
        exact (h.table _ _ htable).2.symm
      | none =>
        dsimp only
        cases hresult : uncached gf s.precedenceList s.methods classes with
        | runs effectiveMethod =>
          refine ⟨rfl, ?_⟩
          dsimp only
          split
          · exact h
          · have hlength' : gf.minargs ≤ (classes.take gf.minargs).length := by
              simpa using hlength
            have hstored := h.store hlength' (htake.trans hresult)
            rw [hdfun] at hstored
            exact hstored
        | wrongNumberOfArguments => exact ⟨rfl, h⟩
        | noApplicableMethod => exact ⟨rfl, h⟩
        | invalid => exact ⟨rfl, h⟩

theorem Valid.exec {op : Op Cls} (h : Valid gf s) (hmeets : op.Transparent gf s) :
    Valid gf (exec gf s op) := by
  cases op with
  | call classes => exact (h.call hmeets).2
  | addMethod m => exact h.addMethod m
  | removeMethod m => exact h.removeMethod m
  | setPrecedenceList c newList => exact h.setPrecedenceList hmeets

theorem valid_of_runsTo (hrun : RunsTo gf (fun s op => op.Transparent gf s) s) : Valid gf s := by
  induction hrun with
  | start precedenceList => exact valid_start
  | step _ hmeets ih => exact ih.exec hmeets

def sampleFunction (minargs : ℕ) : GenericFunction ℕ where
  minargs := minargs
  argumentPrecedenceOrder := none
  methodCombination := .standard
  sort le methods := methods.mergeSort le

/-- Class `1` has the superclass `0`; class `2` has none. -/
def sampleClasses (c : ℕ) : List ℕ := if c = 1 then [1, 0] else [c]

def sampleMethod (id : ℕ) (specializer : ℕ) : Method ℕ := ⟨id, [], [specializer], true⟩

def cachedState : State ℕ :=
  exec (sampleFunction 1)
    (exec (sampleFunction 1)
      (exec (sampleFunction 1) (start (sampleFunction 1) sampleClasses)
        (.addMethod (sampleMethod 0 0)))
      (.addMethod (sampleMethod 1 2)))
    (.call [1])

/-- Class `1` gets another superclass. -/
def redefinedState : State ℕ := exec (sampleFunction 1) cachedState (.setPrecedenceList 1 [1, 2])

def singleState : State ℕ :=
  exec (sampleFunction 1) (start (sampleFunction 1) sampleClasses) (.addMethod (sampleMethod 0 0))

end Xcl.Dispatch
