import Xcl.ClassGraph.Model

/-!
# The links between classes

* `Linked`: the direct subclasses are exactly the inverse of the direct superclasses;
* **`linked_of_runsTo`**: they are linked in every state of a run of such calls.
-/

namespace Xcl.ClassGraph

/-- A class is once among the direct subclasses of its direct superclasses, and of no others. -/
def State.Linked (s : State) : Prop :=
  ∀ c d, (s.classes c).directSubclasses.count d =
    if c ∈ (s.classes d).directSuperclasses then 1 else 0

/-- The call defines a new class, or replaces a forward-referenced one that has no subclasses, with
distinct direct superclasses; or it signals an error before it makes links. -/
def Call.KeepsLinks (s : State) (call : Call) : Prop :=
  call.init.argumentsOk = false ∨
    let (s', directSuperclasses) := s.canonicalizeDirectSuperclasses call.directSuperclasses
    ∀ supers ∈ s'.acceptedSuperclasses directSuperclasses,
      match s.properClass call.name with
      | none => supers.Nodup
      | some c =>
        match (s.classes c).kind with
        | .builtIn => True
        | .forwardReferenced => supers.Nodup ∧
          (call.init.completes = true → (s.classes c).directSubclasses = [] ∧ c ∉ supers)
        | .standard | .funcallable => False

/-! ## The invariant -/

/-- What the calls keep. -/
structure Invariant (s : State) : Prop where
  linked : s.Linked
  fresh : ∀ c, s.count ≤ c →
    (s.classes c).directSuperclasses = [] ∧ (s.classes c).directSubclasses = []
  found : ∀ name c, s.findClass name = some c → c < s.count

variable {s : State} {c d : ℕ} {name : String}

theorem Invariant.allocate (h : Invariant s) (name : String) (kind : Kind) :
    Invariant (s.allocate name kind) := by
  obtain ⟨hsuper, hsub⟩ := h.fresh s.count le_rfl
  have hclasses : ∀ c, ((s.allocate name kind).classes c).directSuperclasses =
      (s.classes c).directSuperclasses ∧ ((s.allocate name kind).classes c).directSubclasses =
      (s.classes c).directSubclasses := by
    intro c
    by_cases hc : c = s.count
    · subst hc
      simp [State.allocate, hsuper, hsub]
    · simp [State.allocate, hc]
  constructor
  · intro c d
    rw [(hclasses c).2, (hclasses d).1]
    exact h.linked c d
  · intro c hc
    rw [(hclasses c).1, (hclasses c).2]
    exact h.fresh c (Nat.le_of_succ_le hc)
  · intro n c hn
    exact Nat.lt_succ_of_lt (h.found n c hn)

theorem Invariant.setFindClass (h : Invariant s) (hc : c < s.count) :
    Invariant (s.setFindClass name c) := by
  constructor
  · exact h.linked
  · exact h.fresh
  · intro n d hd
    by_cases hn : n = name
    · have heq : c = d := by simpa [State.setFindClass, hn] using hd
      rw [← heq]
      exact hc
    · exact h.found n d (by simpa [State.setFindClass, hn] using hd)

theorem canonicalize_spec (h : Invariant s) (specifiers : List Specifier)
    (hknown : ∀ c, .object c ∈ specifiers → c < s.count) :
    Invariant (s.canonicalizeDirectSuperclasses specifiers).1 ∧
      s.count ≤ (s.canonicalizeDirectSuperclasses specifiers).1.count ∧
      (∀ c, c < s.count →
        (s.canonicalizeDirectSuperclasses specifiers).1.classes c = s.classes c) ∧
      ∀ c ∈ (s.canonicalizeDirectSuperclasses specifiers).2,
        c < (s.canonicalizeDirectSuperclasses specifiers).1.count := by
  induction specifiers generalizing s with
  | nil => exact ⟨h, le_rfl, fun _ _ => rfl, by simp [State.canonicalizeDirectSuperclasses]⟩
  | cons specifier rest ih =>
    have hrest : ∀ c, .object c ∈ rest → c < s.count := fun c hc => hknown c (by simp [hc])
    obtain ⟨hinv, hcount, hsame, hmem⟩ := ih h hrest
    cases specifier with
    | object c =>
      refine ⟨hinv, hcount, hsame, ?_⟩
      intro d hd
      rcases List.mem_cons.1 hd with rfl | hd
      · exact lt_of_lt_of_le (hknown d (by simp)) hcount
      · exact hmem d hd
    | name name =>
      unfold State.canonicalizeDirectSuperclasses
      cases hfind : s.findClass name with
      | some c =>
        refine ⟨hinv, hcount, hsame, ?_⟩
        intro d hd
        rcases List.mem_cons.1 hd with rfl | hd
        · exact lt_of_lt_of_le (h.found name d hfind) hcount
        · exact hmem d hd
      | none =>
        have hlt : s.count < (s.allocate name .forwardReferenced).count := Nat.lt_succ_self _
        have hinv' : Invariant ((s.allocate name .forwardReferenced).setFindClass name s.count) :=
          (h.allocate name .forwardReferenced).setFindClass hlt
        obtain ⟨hinv, hcount, hsame, hmem⟩ :=
          ih hinv' fun c hc => Nat.lt_succ_of_lt (hrest c hc)
        refine ⟨hinv, (Nat.le_succ _).trans hcount, ?_, ?_⟩
        · intro c hc
          have hne : c ≠ s.count := by omega
          have heq := hsame c (Nat.lt_succ_of_lt hc)
          simpa [State.setFindClass, State.allocate, hne] using heq
        · intro d hd
          rcases List.mem_cons.1 hd with rfl | hd
          · exact hcount
          · exact hmem d hd

/-! ## Making links -/

theorem foldl_pushDirectSubclass (supers : List ℕ) (s : State) (c d : ℕ) :
    (supers.foldl (State.pushDirectSubclass c) s).classes d =
      { s.classes d with
        directSubclasses :=
          List.replicate (supers.count d) c ++ (s.classes d).directSubclasses } := by
  induction supers generalizing s with
  | nil => rfl
  | cons e supers ih =>
    rw [List.foldl_cons, ih]
    by_cases hd : e = d
    · subst hd
      simp [State.pushDirectSubclass, State.setClass, List.replicate_succ']
    · simp [State.pushDirectSubclass, State.setClass, hd, Ne.symm hd]

theorem foldl_pushDirectSubclass_rest (supers : List ℕ) (s : State) (c : ℕ) :
    (supers.foldl (State.pushDirectSubclass c) s).count = s.count ∧
      (supers.foldl (State.pushDirectSubclass c) s).findClass = s.findClass := by
  induction supers generalizing s with
  | nil => exact ⟨rfl, rfl⟩
  | cons e supers ih =>
    rw [List.foldl_cons]
    exact ih (State.pushDirectSubclass c s e)

theorem Invariant.link (h : Invariant s) (hc : c < s.count)
    (hsuper : (s.classes c).directSuperclasses = []) {supers : List ℕ} (hnodup : supers.Nodup)
    (hmem : ∀ d ∈ supers, d < s.count) :
    Invariant (supers.foldl (State.pushDirectSubclass c)
      (s.setClass c { s.classes c with directSuperclasses := supers })) := by
  obtain ⟨hcount, hfind⟩ := foldl_pushDirectSubclass_rest supers
    (s.setClass c { s.classes c with directSuperclasses := supers }) c
  constructor
  · intro d e
    rw [foldl_pushDirectSubclass, foldl_pushDirectSubclass]
    have hsub : ((s.setClass c { s.classes c with directSuperclasses := supers }).classes
        d).directSubclasses = (s.classes d).directSubclasses := by
      by_cases hd : d = c
      · subst hd
        simp [State.setClass]
      · simp [State.setClass, hd]
    have hold := h.linked d e
    rw [List.count_append, hsub, hold, List.count_replicate]
    by_cases he : e = c
    · -- the new class: it was in no list of subclasses
      subst he
      rw [hsuper]
      simp [State.setClass, hnodup.count]
    · simp [State.setClass, he, Ne.symm he]
  · intro d hd
    rw [hcount] at hd
    have hdc : d ≠ c := by
      rintro rfl
      exact absurd hc (not_lt.2 hd)
    have hnot : d ∉ supers := fun hmem' => absurd (hmem d hmem') (not_lt.2 hd)
    rw [foldl_pushDirectSubclass]
    simpa [State.setClass, hdc, List.count_eq_zero.2 hnot] using h.fresh d hd
  · intro n d hd
    rw [hfind] at hd
    rw [hcount]
    exact h.found n d hd

theorem mem_superclassesOrDefault {directSuperclasses supers : List ℕ} (h : Invariant s)
    (hmem : ∀ d ∈ directSuperclasses, d < s.count)
    (hdefault : s.superclassesOrDefault directSuperclasses = some supers) :
    ∀ d ∈ supers, d < s.count := by
  unfold State.superclassesOrDefault at hdefault
  intro d hd
  split at hdefault
  · obtain ⟨c, hc, heq⟩ := Option.map_eq_some_iff.1 hdefault
    rw [← heq, List.mem_singleton] at hd
    rw [hd]
    exact h.found _ c hc
  · have heq := Option.some.inj hdefault
    rw [← heq] at hd
    exact hmem d hd

theorem mem_acceptedSuperclasses {directSuperclasses supers : List ℕ} (h : Invariant s)
    (hmem : ∀ d ∈ directSuperclasses, d < s.count)
    (haccepted : s.acceptedSuperclasses directSuperclasses = some supers) :
    ∀ d ∈ supers, d < s.count := by
  obtain ⟨hdefault, -⟩ := Option.filter_eq_some_iff.1 haccepted
  exact mem_superclassesOrDefault h hmem hdefault

theorem acceptedSuperclasses_allocate {directSuperclasses : List ℕ} (h : Invariant s)
    (hmem : ∀ d ∈ directSuperclasses, d < s.count) (name : String) (kind : Kind) :
    (s.allocate name kind).acceptedSuperclasses directSuperclasses =
      s.acceptedSuperclasses directSuperclasses := by
  have hvalid : ∀ d, d < s.count →
      (s.allocate name kind).validateSuperclass d = s.validateSuperclass d := by
    intro d hd
    have hne : d ≠ s.count := by omega
    have hclass : (s.allocate name kind).classes d = s.classes d := by simp [State.allocate, hne]
    unfold State.validateSuperclass
    rw [hclass]
    rfl
  have hsame : (s.allocate name kind).superclassesOrDefault directSuperclasses =
      s.superclassesOrDefault directSuperclasses := rfl
  unfold State.acceptedSuperclasses
  rw [hsame]
  cases hdefault : s.superclassesOrDefault directSuperclasses with
  | none => rfl
  | some supers =>
    have hlt := mem_superclassesOrDefault h hmem hdefault
    have hall : supers.all (s.allocate name kind).validateSuperclass =
        supers.all s.validateSuperclass := by
      rw [Bool.eq_iff_iff, List.all_eq_true, List.all_eq_true]
      exact forall₂_congr fun d hd => by rw [hvalid d (hlt d hd)]
    simp only [Option.filter, hall]

/-! ## Calls -/

theorem Invariant.makeInstance {directSuperclasses : List ℕ} (h : Invariant s)
    (hmem : ∀ d ∈ directSuperclasses, d < s.count) (name : String) (kind : Kind)
    (init : Initialization)
    (hnodup : ∀ supers ∈ s.acceptedSuperclasses directSuperclasses, supers.Nodup) :
    Invariant (s.makeInstanceStandardClass name kind directSuperclasses init).1 ∧
      s.count < (s.makeInstanceStandardClass name kind directSuperclasses init).1.count ∧
      ∀ c, c < s.count → (∀ supers ∈ s.acceptedSuperclasses directSuperclasses, c ∉ supers) →
        ((s.makeInstanceStandardClass name kind directSuperclasses init).1.classes
          c).directSubclasses = (s.classes c).directSubclasses := by
  have hallocate := h.allocate name kind
  have hlt : s.count < (s.allocate name kind).count := Nat.lt_succ_self _
  have hold : ∀ c, c < s.count → (s.allocate name kind).classes c = s.classes c := by
    intro c hc
    have hne : c ≠ s.count := by omega
    simp [State.allocate, hne]
  unfold State.makeInstanceStandardClass State.stdAfterInitializationForClasses
  rw [acceptedSuperclasses_allocate h hmem]
  cases haccepted : s.acceptedSuperclasses directSuperclasses with
  | none => exact ⟨hallocate, hlt, fun c hc _ => by rw [hold c hc]⟩
  | some supers =>
    have hsupers := mem_acceptedSuperclasses h hmem haccepted
    dsimp only
    refine ⟨hallocate.link hlt ?_ (hnodup supers haccepted) ?_, ?_, ?_⟩
    · simp [State.allocate]
    · intro d hd
      exact Nat.lt_succ_of_lt (hsupers d hd)
    · rw [(foldl_pushDirectSubclass_rest _ _ _).1]
      exact hlt
    · intro c hc hnot
      have hzero : supers.count c = 0 := List.count_eq_zero.2 (hnot supers rfl)
      have hne : c ≠ s.count := by omega
      rw [foldl_pushDirectSubclass, hzero]
      simp [State.setClass, State.allocate, hne]

theorem Invariant.of_not_accepted {directSuperclasses : List ℕ} {init : Initialization}
    (h : Invariant s) (hnot : ∀ supers ∈ s.acceptedSuperclasses directSuperclasses, False) :
    Invariant (s.stdAfterInitializationForClasses c directSuperclasses init).1 := by
  unfold State.stdAfterInitializationForClasses
  cases haccepted : s.acceptedSuperclasses directSuperclasses with
  | none => exact h
  | some supers => exact (hnot supers haccepted).elim

theorem accepted_of_completes {s' : State} {directSuperclasses : List ℕ} {kind : Kind}
    {init : Initialization} (h : Invariant s) (hmem : ∀ d ∈ directSuperclasses, d < s.count)
    (heq : s.makeInstanceStandardClass name kind directSuperclasses init = (s', true)) :
    ∃ supers, s.acceptedSuperclasses directSuperclasses = some supers ∧ init.completes = true := by
  unfold State.makeInstanceStandardClass State.stdAfterInitializationForClasses at heq
  rw [acceptedSuperclasses_allocate h hmem] at heq
  cases haccepted : s.acceptedSuperclasses directSuperclasses with
  | none =>
    rw [haccepted] at heq
    cases heq
  | some supers =>
    rw [haccepted] at heq
    exact ⟨supers, rfl, (Prod.mk.inj heq).2⟩

theorem Invariant.exec {call : Call} (h : Invariant s) (hknown : call.Known s)
    (hmeets : call.KeepsLinks s) : Invariant (exec s call) := by
  unfold ClassGraph.exec State.ensureClass
  split
  · rename_i hok
    obtain ⟨hinv, hcount, hsame, hmem⟩ := canonicalize_spec h call.directSuperclasses hknown
    have hmeets := hmeets.resolve_left (by simp [hok])
    dsimp only at hmeets ⊢
    generalize (s.canonicalizeDirectSuperclasses call.directSuperclasses).1 = s' at *
    generalize (s.canonicalizeDirectSuperclasses call.directSuperclasses).2 = directSuperclasses
      at *
    cases hclass : s.properClass call.name with
    | none =>
      simp only [hclass] at hmeets
      obtain ⟨hnew, hlt, -⟩ := hinv.makeInstance hmem call.name call.metaclass call.init hmeets
      dsimp only
      split
      · rename_i s'' heq
        rw [heq] at hnew hlt
        exact hnew.setFindClass hlt
      · rename_i s'' heq
        rw [heq] at hnew
        exact hnew
    | some c =>
      have hc : c < s.count := h.found call.name c (Option.filter_eq_some_iff.1 hclass).1
      simp only [hclass] at hmeets
      dsimp only
      rw [hsame c hc]
      cases hkind : (s.classes c).kind with
      | builtIn => exact hinv
      | forwardReferenced =>
        simp only [hkind] at hmeets
        obtain ⟨hnew, hlt, hsub⟩ := hinv.makeInstance hmem call.name .standard call.init
          fun supers hsupers => (hmeets supers hsupers).1
        dsimp only
        split
        · rename_i s'' heq
          obtain ⟨supers, haccepted, hcompletes⟩ := accepted_of_completes hinv hmem heq
          obtain ⟨hnone, hnot⟩ := (hmeets supers haccepted).2 hcompletes
          have hempty := hsub c (lt_of_lt_of_le hc hcount) fun supers' hsupers' => by
            rw [haccepted] at hsupers'
            cases hsupers'
            exact hnot
          rw [heq] at hnew hlt hempty
          rw [hempty, hsame c hc, hnone]
          exact hnew.setFindClass hlt
        · rename_i s'' heq
          rw [heq] at hnew
          exact hnew
      | standard =>
        simp only [hkind] at hmeets
        exact hinv.of_not_accepted hmeets
      | funcallable =>
        simp only [hkind] at hmeets
        exact hinv.of_not_accepted hmeets
  · exact h

/-! ## Runs -/

/-- **The classes stay linked** in the runs whose calls define new classes, or replace
forward-referenced ones without subclasses. -/
theorem linked_of_runsTo {start s : State} (hstart : Invariant start)
    (hrun : RunsTo start (fun s call => call.KeepsLinks s) s) : s.Linked := by
  have h : Invariant s := by
    induction hrun with
    | start => exact hstart
    | step _ hknown hmeets ih => exact ih.exec hknown hmeets
  exact h.linked

/-- The classes `T` and `STANDARD-OBJECT`. -/
def boot : State where
  classes c :=
    if c = 0 then ⟨"T", .builtIn, [], [1]⟩
    else if c = 1 then ⟨"STANDARD-OBJECT", .standard, [0], []⟩
    else ⟨"", .builtIn, [], []⟩
  count := 2
  findClass name :=
    if name = "T" then some 0 else if name = "STANDARD-OBJECT" then some 1 else none

theorem invariant_boot : Invariant boot := by
  constructor
  · intro c d
    by_cases hc : c = 0
    · by_cases hd : d = 1
      · simp [boot, hc, hd]
      · by_cases hd0 : d = 0 <;> simp [boot, hc, hd, Ne.symm hd, hd0]
    · have hempty : (boot.classes c).directSubclasses = [] := by
        by_cases hc1 : c = 1 <;> simp [boot, hc, hc1]
      have hnot : c ∉ (boot.classes d).directSuperclasses := by
        by_cases hd0 : d = 0
        · simp [boot, hd0]
        · by_cases hd1 : d = 1 <;> simp [boot, hd0, hd1, hc]
      simp [hempty, hnot]
  · intro c hc
    have hge : 2 ≤ c := hc
    have hc0 : c ≠ 0 := by omega
    have hc1 : c ≠ 1 := by omega
    simp [boot, hc0, hc1]
  · intro name c hc
    unfold boot at hc
    dsimp only at hc
    change c < 2
    split at hc
    · cases hc
      decide
    · split at hc
      · cases hc
        decide
      · cases hc

/-- A call that completes. -/
def define (name : String) (directSuperclasses : List String) : Call where
  name := name
  directSuperclasses := directSuperclasses.map .name
  metaclass := .standard
  init := ⟨true, true⟩

/-- Two classes are defined one after the other. -/
theorem linked_defined :
    (exec (exec boot (define "A" [])) (define "B" ["A", "STANDARD-OBJECT"])).Linked ∧
      ((exec (exec boot (define "A" [])) (define "B" ["A", "STANDARD-OBJECT"])).classes
        2).directSubclasses = [3] := by
  constructor
  · apply linked_of_runsTo invariant_boot
    refine RunsTo.step (RunsTo.step .start ?_ ?_) ?_ ?_
    · intro c hc
      simp [define] at hc
    · refine Or.inr ?_
      intro supers hsupers
      cases hsupers
      change [1].Nodup
      decide
    · intro c hc
      simp [define] at hc
    · refine Or.inr ?_
      intro supers hsupers
      cases hsupers
      change [2, 1].Nodup
      decide
  · decide

theorem runsTo_foldl {start s : State} {calls : List Call}
    (hrun : RunsTo start (fun _ _ => True) s)
    (hcalls : ∀ call ∈ calls, ∀ specifier ∈ call.directSuperclasses,
      ∃ name, specifier = .name name) :
    RunsTo start (fun _ _ => True) (calls.foldl exec s) := by
  induction calls generalizing s with
  | nil => exact hrun
  | cons call calls ih =>
    apply ih
    · refine hrun.step ?_ trivial
      intro c hc
      obtain ⟨name, hname⟩ := hcalls call (by simp) _ hc
      cases hname
    · intro call' hcall'
      exact hcalls call' (by simp [hcall'])

/-- A class is defined twice. -/
def redefinition : List Call := [define "A" [], define "A" []]

/-- A class gets another superclass. -/
def otherSuperclass : List Call := [define "A" [], define "B" [], define "A" ["B"]]

/-- A subclass is defined before its superclass. -/
def forwardReference : List Call := [define "A" ["B"], define "B" []]

/-- A superclass is named twice; the finalization does not complete. -/
def repeatedSuperclass : List Call :=
  [define "A" [], { define "B" ["A", "A"] with init := ⟨true, false⟩ }]

/-- The other calls leave a class twice among the subclasses, or not at all, or among those of a
class that is no longer its superclass. -/
theorem not_linked_of_runsTo :
    [redefinition, otherSuperclass, forwardReference, repeatedSuperclass].Forall fun calls =>
      RunsTo boot (fun _ _ => True) (calls.foldl exec boot) ∧
        ¬(calls.foldl exec boot).Linked := by
  have hnames : ∀ calls ∈ [redefinition, otherSuperclass, forwardReference, repeatedSuperclass],
      ∀ call ∈ calls, ∀ specifier ∈ call.directSuperclasses, ∃ name, specifier = .name name := by
    intro calls hcalls call hcall specifier hspecifier
    cases specifier with
    | name name => exact ⟨name, rfl⟩
    | object c =>
      fin_cases hcalls <;> fin_cases hcall <;> simp [define] at hspecifier
  rw [List.forall_iff_forall_mem]
  intro calls hcalls
  refine ⟨runsTo_foldl .start (hnames calls hcalls), fun h => ?_⟩
  fin_cases hcalls
  · exact absurd (h 1 2) (by decide)
  · exact absurd (h 1 2) (by decide)
  · exact absurd (h 4 3) (by decide)
  · exact absurd (h 2 3) (by decide)

end Xcl.ClassGraph
