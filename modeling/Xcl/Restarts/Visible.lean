import Mathlib.Data.List.Basic
import Mathlib.Data.List.Infix
import Mathlib.Data.List.Nodup
import Mathlib.Tactic.Tauto

/-!
# Visible restarts

`restart.lisp`: the active restarts, and the conditions some of them are associated with.

* `Restart`, `State`: the restarts that were made, `*restart-clusters*` and `*condition-restarts*`;
* **`seesVisible_iff`**: exactly when they are.
-/

namespace Xcl.Restarts

variable {C N : Type}

/-! ## The functions -/

structure Restart (C N : Type) where
  name : N
  /-- The test function, of a condition or `NIL`. -/
  test : Option C → Bool

/-- A restart is named by its place among those that were made. -/
structure State (C N : Type) where
  restarts : List (Restart C N)
  /-- `*restart-clusters*` -/
  clusters : List (List ℕ)
  /-- `*condition-restarts*` -/
  conditionRestarts : List (C × List ℕ)

def State.initial : State C N := ⟨[], [], []⟩

/-- `(funcall (restart-test-function restart) condition)` -/
def State.test (s : State C N) (restart : ℕ) (condition : Option C) : Bool :=
  s.restarts[restart]?.any (·.test condition)

/-- `restart-name` -/
def State.name (s : State C N) (restart : ℕ) : Option N := s.restarts[restart]?.map (·.name)

/-- The restarts that `make-restart` makes of the bindings. -/
def State.made (s : State C N) (bindings : List (Restart C N)) : List ℕ :=
  List.range' s.restarts.length bindings.length

/-- `restart-bind`, around its body -/
def State.restartBind (s : State C N) (bindings : List (Restart C N)) : State C N where
  restarts := s.restarts ++ bindings
  clusters := s.made bindings :: s.clusters
  conditionRestarts := s.conditionRestarts

variable [DecidableEq C]

/-- `(cdr (assoc condition *condition-restarts*))` -/
def State.restartsOf (s : State C N) (condition : C) : List ℕ :=
  (s.conditionRestarts.lookup condition).getD []

/-- `with-condition-restarts`, around its body -/
def State.withConditionRestarts (s : State C N) (condition : C) (restarts : List ℕ) :
    State C N where
  restarts := s.restarts
  clusters := s.clusters
  conditionRestarts := (condition, restarts ++ s.restartsOf condition) :: s.conditionRestarts

/-- The first loop of `compute-restarts`. -/
def scan (condition : Option C) : List (C × List ℕ) → List ℕ → List ℕ → List ℕ × List ℕ
  | [], associated, other => (associated, other)
  | alist :: rest, associated, other =>
    if some alist.1 = condition then scan condition rest alist.2 other
    else scan condition rest associated (alist.2 ++ other)

/-- Its second loop, over one cluster and over all. -/
def collectCluster (accepts : ℕ → Bool) : List ℕ → List ℕ → List ℕ
  | [], res => res
  | restart :: rest, res =>
    collectCluster accepts rest (if accepts restart then restart :: res else res)

def collect (accepts : ℕ → Bool) : List (List ℕ) → List ℕ → List ℕ
  | [], res => res.reverse
  | cluster :: rest, res => collect accepts rest (collectCluster accepts cluster res)

/-- Whether a restart is pushed, with `associated` and `other`. -/
def State.accepts (s : State C N) (condition : Option C) (lists : List ℕ × List ℕ)
    (restart : ℕ) : Bool :=
  (condition.isNone || lists.1.contains restart || !lists.2.contains restart) &&
    s.test restart condition

def computeRestarts (s : State C N) (condition : Option C) : List ℕ :=
  collect (s.accepts condition (scan condition s.conditionRestarts [] [])) s.clusters []

/-- The first argument of `find-restart`. -/
inductive Identifier (N : Type)
  | restart (restart : ℕ)
  | name (name : N)

section

variable [DecidableEq N]

/-- `(or (eq restart name) (eq (restart-name restart) name))` -/
def State.isNamed (s : State C N) (restart : ℕ) : Identifier N → Bool
  | .restart r => restart = r
  | .name n => s.name restart = some n

def findRestart (s : State C N) (identifier : Identifier N) (condition : Option C) : Option ℕ :=
  (computeRestarts s condition).find? (s.isNamed · identifier)

end

/-! ## What should be visible -/

/-- The forms around a place, with what they were given. -/
inductive Frame (C : Type)
  | restartBind (cluster : List ℕ)
  | withConditionRestarts (condition : C) (restarts : List ℕ)

inductive Active : List (Frame C) → State C N → Prop
  | toplevel : Active [] .initial
  | restartBind {frames s} (bindings : List (Restart C N)) (h : Active frames s) :
      Active (.restartBind (s.made bindings) :: frames) (s.restartBind bindings)
  | withConditionRestarts {frames s} (condition : C) (restarts : List ℕ) (h : Active frames s) :
      Active (.withConditionRestarts condition restarts :: frames)
        (s.withConditionRestarts condition restarts)
  /-- Inner forms were left: the variables have their values again. -/
  | left {frames s frames' s'} (h : Active frames s) (h' : Active frames' s')
      (hinner : frames <:+ frames') (hmade : s.restarts <+: s'.restarts) :
      Active frames { s with restarts := s'.restarts }

/-- The active restarts, innermost first. -/
def activeRestarts : List (Frame C) → List ℕ
  | [] => []
  | .restartBind cluster :: frames => cluster ++ activeRestarts frames
  | .withConditionRestarts _ _ :: frames => activeRestarts frames

def associations (restart : ℕ) : List (Frame C) → List C
  | [] => []
  | .restartBind _ :: frames => associations restart frames
  | .withConditionRestarts condition restarts :: frames =>
    if restart ∈ restarts then condition :: associations restart frames
    else associations restart frames

/-- The active restarts whose test accepts the condition and that are associated with it or with no
condition at all. -/
def visible (s : State C N) (frames : List (Frame C)) : Option C → List ℕ
  | none => (activeRestarts frames).filter (s.test · none)
  | some c => (activeRestarts frames).filter fun restart =>
      s.test restart (some c) &&
        (c ∈ associations restart frames || associations restart frames = [])

structure SeesVisible [DecidableEq N] (s : State C N) (frames : List (Frame C))
    (condition : Option C) : Prop where
  computed : computeRestarts s condition = visible s frames condition
  nodup : (computeRestarts s condition).Nodup
  found : ∀ identifier, findRestart s identifier condition =
    (visible s frames condition).find? (s.isNamed · identifier)

/-- What the outermost `with-condition-restarts` of a condition was given. -/
def outermost (condition : C) : List (Frame C) → Option (List ℕ)
  | [] => none
  | .restartBind _ :: frames => outermost condition frames
  | .withConditionRestarts d restarts :: frames =>
    (outermost condition frames).or (if d = condition then some restarts else none)

/-- Every active restart that is associated with this condition and with another one is named by the
outermost `with-condition-restarts` of this one, or its test refuses the condition. -/
def NamedOutermost (s : State C N) (frames : List (Frame C)) (condition : C) : Prop :=
  ∀ restart ∈ activeRestarts frames, s.test restart (some condition) →
    condition ∈ associations restart frames → (∃ d ∈ associations restart frames, d ≠ condition) →
      restart ∈ (outermost condition frames).getD []

/-! ## The loops -/

variable {frames : List (Frame C)} {s : State C N} {condition d : C} {restart : ℕ}

theorem collectCluster_eq (accepts : ℕ → Bool) (cluster res : List ℕ) :
    collectCluster accepts cluster res = (cluster.filter accepts).reverse ++ res := by
  induction cluster generalizing res with
  | nil => rfl
  | cons restart cluster ih =>
    by_cases h : accepts restart
    · rw [collectCluster, if_pos h, ih, List.filter_cons_of_pos h, List.reverse_cons,
        List.append_assoc, List.singleton_append]
    · rw [collectCluster, if_neg h, ih, List.filter_cons_of_neg h]

theorem collect_eq (accepts : ℕ → Bool) (clusters : List (List ℕ)) (res : List ℕ) :
    collect accepts clusters res = res.reverse ++ clusters.flatten.filter accepts := by
  induction clusters generalizing res with
  | nil => exact (List.append_nil _).symm
  | cons cluster clusters ih =>
    rw [collect, ih, collectCluster_eq, List.flatten_cons, List.filter_append,
      List.reverse_append, List.reverse_reverse, List.append_assoc]

def lastFor (condition : C) (l : List (C × List ℕ)) : Option (List ℕ) :=
  (l.filter (·.1 = condition)).getLast?.map (·.2)

theorem lastFor_cons (e : C × List ℕ) (l : List (C × List ℕ)) :
    lastFor condition (e :: l) =
      (lastFor condition l).or (if e.1 = condition then some e.2 else none) := by
  by_cases h : e.1 = condition
  · rw [lastFor, List.filter_cons_of_pos (by simpa using h), List.getLast?_cons, if_pos h, lastFor]
    cases (l.filter (·.1 = condition)).getLast? <;> rfl
  · rw [lastFor, List.filter_cons_of_neg (by simpa using h), if_neg h, Option.or_none]
    rfl

/-- **The first loop**: the last list for the condition, and all restarts in lists for others. -/
theorem scan_spec (l : List (C × List ℕ)) (associated other : List ℕ) :
    (scan (some condition) l associated other).1 = (lastFor condition l).getD associated ∧
      (restart ∈ (scan (some condition) l associated other).2 ↔
        restart ∈ other ∨ ∃ e ∈ l, e.1 ≠ condition ∧ restart ∈ e.2) := by
  induction l generalizing associated other with
  | nil => simp [scan, lastFor]
  | cons e l ih =>
    by_cases h : e.1 = condition
    · rw [scan, if_pos (congrArg some h), lastFor_cons, if_pos h]
      obtain ⟨hfirst, hsecond⟩ := ih e.2 other
      refine ⟨?_, by simp [hsecond, h]⟩
      rw [hfirst]
      cases lastFor condition l <;> rfl
    · rw [scan, if_neg fun heq => h (Option.some.inj heq), lastFor_cons, if_neg h, Option.or_none]
      obtain ⟨hfirst, hsecond⟩ := ih associated (e.2 ++ other)
      refine ⟨hfirst, ?_⟩
      rw [hsecond, List.mem_append, List.exists_mem_cons_iff]
      tauto

/-! ## The states -/

/-- What the variables hold inside a nesting. -/
structure Invariant (frames : List (Frame C)) (s : State C N) : Prop where
  clusters : s.clusters.flatten = activeRestarts frames
  nodup : (activeRestarts frames).Nodup
  made : ∀ restart ∈ activeRestarts frames, restart < s.restarts.length
  associated : ∀ restart d,
    (∃ e ∈ s.conditionRestarts, e.1 = d ∧ restart ∈ e.2) ↔ d ∈ associations restart frames
  outermost : ∀ d, lastFor d s.conditionRestarts = outermost d frames

theorem Invariant.restartBind (h : Invariant frames s) (bindings : List (Restart C N)) :
    Invariant (.restartBind (s.made bindings) :: frames) (s.restartBind bindings) where
  clusters := congrArg (s.made bindings ++ ·) h.clusters
  nodup := by
    refine List.Nodup.append List.nodup_range' h.nodup fun restart hnew hold => ?_
    have hge := (List.mem_range'_1.mp hnew).1
    have hlt := h.made restart hold
    omega
  made := by
    intro restart hrestart
    rw [State.restartBind, List.length_append]
    rcases List.mem_append.mp hrestart with hnew | hold
    · exact (List.mem_range'_1.mp hnew).2
    · exact Nat.lt_add_right _ (h.made restart hold)
  associated := h.associated
  outermost := h.outermost

theorem exists_of_mem_restartsOf (h : restart ∈ s.restartsOf condition) :
    ∃ e ∈ s.conditionRestarts, e.1 = condition ∧ restart ∈ e.2 := by
  rw [State.restartsOf] at h
  cases hlookup : s.conditionRestarts.lookup condition with
  | none =>
    rw [hlookup] at h
    cases h
  | some restarts =>
    rw [hlookup] at h
    obtain ⟨l₁, l₂, heq, -⟩ := List.lookup_eq_some_iff.mp hlookup
    exact ⟨(condition, restarts), by simp [heq], rfl, h⟩

theorem restartsOf_eq_nil (h : lastFor condition s.conditionRestarts = none) :
    s.restartsOf condition = [] := by
  have hnil : s.conditionRestarts.filter (·.1 = condition) = [] := by simpa [lastFor] using h
  have hlookup : s.conditionRestarts.lookup condition = none := by
    refine List.lookup_eq_none_iff.mpr fun e he => ?_
    have hne : e.1 ≠ condition := by simpa using List.filter_eq_nil_iff.mp hnil e he
    exact bne_iff_ne.mpr hne.symm
  rw [State.restartsOf, hlookup, Option.getD_none]

theorem Invariant.withConditionRestarts (h : Invariant frames s) (condition : C)
    (restarts : List ℕ) :
    Invariant (.withConditionRestarts condition restarts :: frames)
      (s.withConditionRestarts condition restarts) where
  clusters := h.clusters
  nodup := h.nodup
  made := h.made
  associated := by
    intro restart d
    have hd : d ∈ associations restart (.withConditionRestarts condition restarts :: frames) ↔
        (d = condition ∧ restart ∈ restarts) ∨ d ∈ associations restart frames := by
      by_cases hrestart : restart ∈ restarts <;> simp [associations, hrestart]
    rw [hd, ← h.associated, State.withConditionRestarts, List.exists_mem_cons_iff, List.mem_append]
    constructor
    · rintro (⟨rfl, hrestart | hrestart⟩ | hrest)
      · exact .inl ⟨rfl, hrestart⟩
      · exact .inr (exists_of_mem_restartsOf hrestart)
      · exact .inr hrest
    · rintro (⟨rfl, hrestart⟩ | hrest)
      · exact .inl ⟨rfl, .inl hrestart⟩
      · exact .inr hrest
  outermost := by
    intro d
    rw [State.withConditionRestarts, lastFor_cons, Restarts.outermost, ← h.outermost]
    cases hlast : lastFor d s.conditionRestarts with
    | some last => rfl
    | none =>
      by_cases hcondition : condition = d
      · rw [if_pos hcondition, if_pos hcondition, hcondition, restartsOf_eq_nil hlast,
          List.append_nil]
      · rw [if_neg hcondition, if_neg hcondition]

theorem Active.invariant (h : Active frames s) : Invariant frames s := by
  induction h with
  | toplevel => exact ⟨rfl, .nil, nofun, by simp [State.initial, associations], fun d => rfl⟩
  | restartBind bindings h ih => exact ih.restartBind bindings
  | withConditionRestarts condition restarts h ih =>
    exact ih.withConditionRestarts condition restarts
  | left h h' hinner hmade ih ih' =>
    exact ⟨ih.clusters, ih.nodup,
      fun restart hrestart => (ih.made restart hrestart).trans_le hmade.length_le, ih.associated,
      ih.outermost⟩

/-! ## The theorem -/

theorem mem_associations_of_outermost (h : restart ∈ (outermost condition frames).getD []) :
    condition ∈ associations restart frames := by
  induction frames with
  | nil => cases h
  | cons frame frames ih =>
    cases frame with
    | restartBind cluster => exact ih h
    | withConditionRestarts d ds =>
      have hmem : condition ∈ associations restart frames ∨ (d = condition ∧ restart ∈ ds) := by
        rw [outermost] at h
        cases hlast : outermost condition frames with
        | some last =>
          rw [hlast] at h ih
          exact .inl (ih h)
        | none =>
          rw [hlast, Option.none_or] at h
          by_cases hd : d = condition
          · rw [if_pos hd] at h
            exact .inr ⟨hd, h⟩
          · rw [if_neg hd] at h
            cases h
      by_cases hds : restart ∈ ds
      · rw [associations, if_pos hds]
        rcases hmem with h | ⟨rfl, -⟩
        · exact List.mem_cons_of_mem _ h
        · exact List.mem_cons_self
      · rw [associations, if_neg hds]
        exact hmem.resolve_right fun h => hds h.2

theorem computeRestarts_none (h : Invariant frames s) :
    computeRestarts s none = visible s frames none := by
  rw [computeRestarts, collect_eq, h.clusters]
  rfl

theorem accepts_iff (h : Invariant frames s) :
    s.accepts (some condition) (scan (some condition) s.conditionRestarts [] []) restart ↔
      (restart ∈ (outermost condition frames).getD [] ∨
        ¬∃ d ∈ associations restart frames, d ≠ condition) ∧ s.test restart (some condition) := by
  obtain ⟨hassociated, hother⟩ := @scan_spec C _ condition restart s.conditionRestarts [] []
  have hother : restart ∈ (scan (some condition) s.conditionRestarts [] []).2 ↔
      ∃ d ∈ associations restart frames, d ≠ condition := by
    rw [hother]
    constructor
    · rintro (hnil | ⟨e, he, hne, hrestart⟩)
      · cases hnil
      · exact ⟨e.1, (h.associated _ _).mp ⟨e, he, rfl, hrestart⟩, hne⟩
    · rintro ⟨d, hd, hne⟩
      obtain ⟨e, he, rfl, hrestart⟩ := (h.associated _ _).mpr hd
      exact .inr ⟨e, he, hne, hrestart⟩
  rw [State.accepts, hassociated, h.outermost, ← hother]
  simp

variable [DecidableEq N]

theorem seesVisible_of_computed (h : Invariant frames s) {c : Option C}
    (hcomputed : computeRestarts s c = visible s frames c) : SeesVisible s frames c where
  computed := hcomputed
  nodup := by
    rw [hcomputed]
    cases c with
    | none => exact h.nodup.filter _
    | some c => exact h.nodup.filter _
  found := fun identifier => congrArg (List.find? _) hcomputed

/-- **When the right restarts are seen**: in any nesting, without a condition always, and with one
exactly when what it shares with other conditions is named by its outermost form. -/
theorem seesVisible_iff (h : Active frames s) (condition : C) :
    SeesVisible s frames none ∧ SeesVisible s frames (some condition) ↔
      NamedOutermost s frames condition := by
  have hinvariant := h.invariant
  rw [and_iff_right (seesVisible_of_computed hinvariant (computeRestarts_none hinvariant))]
  have hcomputed : computeRestarts s (some condition) = (activeRestarts frames).filter
      (s.accepts (some condition) (scan (some condition) s.conditionRestarts [] [])) := by
    rw [computeRestarts, collect_eq, hinvariant.clusters]
    rfl
  have hvisible : ∀ restart, restart ∈ visible s frames (some condition) ↔
      restart ∈ activeRestarts frames ∧ s.test restart (some condition) ∧
        (condition ∈ associations restart frames ∨ associations restart frames = []) := by
    intro restart
    simp [visible]
  constructor
  · intro hsees restart hactive htest hassociated hother
    have hmem : restart ∈ computeRestarts s (some condition) :=
      hsees.computed ▸ (hvisible restart).mpr ⟨hactive, htest, .inl hassociated⟩
    rw [hcomputed, List.mem_filter, accepts_iff hinvariant] at hmem
    exact hmem.2.1.resolve_right fun hnone => hnone hother
  · intro hnamed
    refine seesVisible_of_computed hinvariant (hcomputed.trans ?_)
    refine List.filter_congr fun restart hactive => Bool.eq_iff_iff.mpr ?_
    rw [accepts_iff hinvariant]
    simp only [Bool.and_eq_true, Bool.or_eq_true, decide_eq_true_eq]
    constructor
    · rintro ⟨houter | hnone, htest⟩
      · exact ⟨htest, .inl (mem_associations_of_outermost houter)⟩
      · refine ⟨htest, ?_⟩
        cases hassociations : associations restart frames with
        | nil => exact .inr rfl
        | cons d ds =>
          obtain rfl : d = condition := by
            by_contra hd
            exact hnone ⟨d, hassociations ▸ List.mem_cons_self, hd⟩
          exact .inl List.mem_cons_self
    · rintro ⟨htest, hassociated | hnil⟩
      · refine ⟨?_, htest⟩
        by_cases hother : ∃ d ∈ associations restart frames, d ≠ condition
        · exact .inl (hnamed restart hactive htest hassociated hother)
        · exact .inr hother
      · exact ⟨.inr (by simp [hnil]), htest⟩

/-- Inside one `restart-bind`, with one restart. -/
def oneRestart : State ℕ ℕ := State.initial.restartBind [⟨0, fun _ => true⟩]

theorem active_oneRestart : Active [.restartBind [0]] oneRestart :=
  .restartBind [⟨0, fun _ => true⟩] .toplevel

theorem seesVisible_iff_oneRestart :
    SeesVisible (oneRestart.withConditionRestarts 0 [0])
        [.withConditionRestarts 0 [0], .restartBind [0]] none ∧
      SeesVisible (oneRestart.withConditionRestarts 0 [0])
        [.withConditionRestarts 0 [0], .restartBind [0]] (some 0) ↔
      NamedOutermost (oneRestart.withConditionRestarts 0 [0])
        [.withConditionRestarts 0 [0], .restartBind [0]] 0 :=
  seesVisible_iff (active_oneRestart.withConditionRestarts 0 [0]) 0

/-- The restart is associated with condition 0 by an inner form only, and with condition 1. -/
theorem not_seesVisible_shared :
    ∃ (frames : List (Frame ℕ)) (s : State ℕ ℕ), Active frames s ∧
      ¬SeesVisible s frames (some 0) := by
  have hactive := ((active_oneRestart.withConditionRestarts 0 []).withConditionRestarts 0
    [0]).withConditionRestarts 1 [0]
  refine ⟨_, _, hactive, fun h => ?_⟩
  have hcomputed := h.computed
  revert hcomputed
  decide

end Xcl.Restarts
