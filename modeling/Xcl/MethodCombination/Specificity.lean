import Xcl.MethodCombination.Model

/-!
# The order of specificity

* `Matches`, `Applicable`: which methods are applicable;
* **`computeApplicableMethods_spec`**: the applicable methods, each once and in this order.
-/

namespace Xcl.MethodCombination

variable {Obj Cls : Type} [DecidableEq Cls]

/-! ## Applicable methods -/

section Applicable

variable (w : Objects Obj Cls) (gf : GenericFunction Obj Cls) (args : List Obj)

def Matches : Specializer Obj Cls → Obj → Prop
  | .eql object, arg => arg = object
  | .cls c, arg => c ∈ w.precedenceList (w.classOf arg)

structure Applicable (m : Method Obj Cls) : Prop where
  mem : m ∈ gf.methods
  matched : ∀ (i : ℕ) (spec : Specializer Obj Cls) (arg : Obj), m.specializers[i]? = some spec →
    args[i]? = some arg → Matches w spec arg

/-- The indices of the arguments, in the order in which they are considered. -/
def GenericFunction.precedence : List ℕ :=
  if gf.argumentPrecedenceOrder = [] then List.range gf.minargs else gf.argumentPrecedenceOrder

/-- EQL before class, and a class before those that follow it in the class precedence list. -/
def SpecBefore (c : Cls) : Specializer Obj Cls → Specializer Obj Cls → Prop
  | .eql _, .cls _ => True
  | .cls c₁, .cls c₂ => (w.precedenceList c).idxOf c₁ < (w.precedenceList c).idxOf c₂
  | _, .eql _ => False

/-- The first argument for which the specializers differ decides. -/
def MoreSpecific (m₁ m₂ : Method Obj Cls) : Prop :=
  ∃ before i after, gf.precedence = before ++ i :: after ∧
    (∀ j ∈ before, m₁.specializers[j]? = m₂.specializers[j]?) ∧
    ∃ spec₁ spec₂ arg, m₁.specializers[i]? = some spec₁ ∧ m₂.specializers[i]? = some spec₂ ∧
      args[i]? = some arg ∧ SpecBefore w (w.classOf arg) spec₁ spec₂

variable {w gf args}

theorem methodApplicableP_iff [DecidableEq Obj] {specializers : List (Specializer Obj Cls)}
    {args : List Obj} (h : specializers.length ≤ args.length) :
    methodApplicableP w specializers args = true ↔
      ∀ (i : ℕ) (spec : Specializer Obj Cls) (arg : Obj), specializers[i]? = some spec →
        args[i]? = some arg → Matches w spec arg := by
  induction specializers generalizing args with
  | nil => simp [methodApplicableP]
  | cons spec specializers ih =>
    cases args with
    | nil => simp at h
    | cons arg args =>
      have hhead : methodApplicableP w (spec :: specializers) (arg :: args) = true ↔
          Matches w spec arg ∧ methodApplicableP w specializers args = true := by
        cases spec <;> simp [methodApplicableP, Matches, subclassp]
      rw [hhead, ih (by simpa using h)]
      constructor
      · rintro ⟨hmatch, hall⟩ (_ | i) spec' arg' hspec harg
        · cases hspec
          cases harg
          exact hmatch
        · exact hall i spec' arg' hspec harg
      · intro hall
        exact ⟨hall 0 spec arg rfl rfl, fun i spec' arg' hspec harg =>
          hall (i + 1) spec' arg' hspec harg⟩

end Applicable

/-! ## Ranks -/

section Rank

variable (w : Objects Obj Cls)

/-- The position of a specializer, for an argument of class `c`. -/
def rank (c : Cls) : Specializer Obj Cls → ℕ
  | .eql _ => 0
  | .cls c' => (w.precedenceList c).idxOf c' + 1

variable {w} {c : Cls} {arg : Obj} {spec₁ spec₂ : Specializer Obj Cls}

theorem rank_lt : rank w c spec₁ < rank w c spec₂ ↔ SpecBefore w c spec₁ spec₂ := by
  cases spec₁ <;> cases spec₂ <;> simp [rank, SpecBefore]

theorem rank_inj (h₁ : Matches w spec₁ arg) (h₂ : Matches w spec₂ arg) :
    rank w (w.classOf arg) spec₁ = rank w (w.classOf arg) spec₂ ↔ spec₁ = spec₂ := by
  constructor
  · intro h
    cases spec₁ with
    | eql object₁ =>
      cases spec₂ with
      | eql object₂ => exact congrArg _ (h₁.symm.trans h₂)
      | cls c₂ => simp [rank] at h
    | cls c₁ =>
      cases spec₂ with
      | eql object₂ => simp [rank] at h
      | cls c₂ =>
        have hidx : (w.precedenceList (w.classOf arg)).idxOf c₁ =
            (w.precedenceList (w.classOf arg)).idxOf c₂ := by simpa [rank] using h
        exact congrArg _ ((List.idxOf_inj h₁).mp hidx)
  · rintro rfl
    rfl

/-- `sub-specializer-p` looks at what follows the first class. -/
theorem subSpecializerP_iff {c₁ c₂ : Cls} (h₁ : c₁ ∈ w.precedenceList c)
    (h₂ : c₂ ∈ w.precedenceList c) (hne : c₁ ≠ c₂) :
    subSpecializerP w c₁ c₂ c = true ↔
      (w.precedenceList c).idxOf c₁ < (w.precedenceList c).idxOf c₂ := by
  have hnodup := w.nodup c
  rw [subSpecializerP, decide_eq_true_iff]
  generalize w.precedenceList c = cpl at *
  induction cpl with
  | nil => cases h₁
  | cons a cpl ih =>
    obtain ⟨hnew, hnodup⟩ := List.nodup_cons.mp hnodup
    by_cases ha₁ : a = c₁
    · subst ha₁
      have h₂' : c₂ ∈ cpl := (List.mem_cons.mp h₂).resolve_left (Ne.symm hne)
      simp [h₂', List.idxOf_cons_ne _ hne]
    · have h₁' : c₁ ∈ cpl := (List.mem_cons.mp h₁).resolve_left (Ne.symm ha₁)
      have hdrop : (a :: cpl).dropWhile (fun c => decide (c ≠ c₁)) =
          cpl.dropWhile fun c => decide (c ≠ c₁) :=
        List.dropWhile_cons_of_pos (by simpa using ha₁)
      rw [hdrop, List.idxOf_cons_ne _ ha₁]
      by_cases ha₂ : a = c₂
      · subst ha₂
        have hnot : a ∉ (cpl.dropWhile fun c => decide (c ≠ c₁)).tail := fun h =>
          hnew ((List.dropWhile_sublist _).subset (List.mem_of_mem_tail h))
        simpa using hnot
      · have h₂' : c₂ ∈ cpl := (List.mem_cons.mp h₂).resolve_left (Ne.symm ha₂)
        rw [List.idxOf_cons_ne _ ha₂, Nat.add_one_lt_add_one_iff]
        exact ih h₁' h₂' hnodup

end Rank

/-! ## Keys -/

section Key

variable (w : Objects Obj Cls) (gf : GenericFunction Obj Cls) (args : List Obj)

def rankAt (m : Method Obj Cls) (i : ℕ) : ℕ :=
  match m.specializers[i]?, args[i]? with
  | some spec, some arg => rank w (w.classOf arg) spec
  | _, _ => 0

/-- The ranks of the specializers, in the order in which the arguments are considered. -/
def key (m : Method Obj Cls) : List ℕ := gf.precedence.map (rankAt w args m)

variable {w gf args}

omit [DecidableEq Cls] in
theorem mem_precedence {i : ℕ} : i ∈ gf.precedence ↔ i < gf.minargs := by
  unfold GenericFunction.precedence
  split_ifs with h
  · exact List.mem_range
  · rw [(gf.order.resolve_left h).mem_iff]
    exact List.mem_range

theorem Applicable.get {m : Method Obj Cls} (h : Applicable w gf args m)
    (hargs : gf.minargs ≤ args.length) {i : ℕ} (hi : i < gf.minargs) :
    ∃ spec arg, m.specializers[i]? = some spec ∧ args[i]? = some arg ∧ Matches w spec arg ∧
      rankAt w args m i = rank w (w.classOf arg) spec := by
  have hlength := gf.lengths m h.mem
  have hspec := List.getElem?_eq_getElem (l := m.specializers) (show i < _ by omega)
  have harg := List.getElem?_eq_getElem (l := args) (show i < _ by omega)
  refine ⟨_, _, hspec, harg, h.matched i _ _ hspec harg, ?_⟩
  rw [rankAt, hspec, harg]

variable {m₁ m₂ : Method Obj Cls}

theorem rankAt_inj (h₁ : Applicable w gf args m₁) (h₂ : Applicable w gf args m₂)
    (hargs : gf.minargs ≤ args.length) {i : ℕ} (hi : i < gf.minargs) :
    rankAt w args m₁ i = rankAt w args m₂ i ↔ m₁.specializers[i]? = m₂.specializers[i]? := by
  obtain ⟨spec₁, arg, hspec₁, harg, hmatch₁, hrank₁⟩ := h₁.get hargs hi
  obtain ⟨spec₂, arg', hspec₂, harg', hmatch₂, hrank₂⟩ := h₂.get hargs hi
  obtain rfl : arg = arg' := Option.some.inj (harg.symm.trans harg')
  rw [hrank₁, hrank₂, hspec₁, hspec₂, rank_inj hmatch₁ hmatch₂, Option.some_inj]

theorem key_inj (h₁ : Applicable w gf args m₁) (h₂ : Applicable w gf args m₂)
    (hargs : gf.minargs ≤ args.length) (h : key w gf args m₁ = key w gf args m₂) :
    m₁.specializers = m₂.specializers := by
  have hlength₁ := gf.lengths m₁ h₁.mem
  have hlength₂ := gf.lengths m₂ h₂.mem
  refine List.ext_getElem? fun i => ?_
  by_cases hi : i < gf.minargs
  · exact (rankAt_inj h₁ h₂ hargs hi).mp (List.map_inj_left.mp h i (mem_precedence.mpr hi))
  · rw [List.getElem?_eq_none (by omega), List.getElem?_eq_none (by omega)]

/-- The lexicographic order, with the first place where two lists differ. -/
theorem map_lt_map_iff {f g : ℕ → ℕ} {l : List ℕ} :
    l.map f < l.map g ↔ ∃ before i after, l = before ++ i :: after ∧ (∀ j ∈ before, f j = g j) ∧
      f i < g i := by
  induction l with
  | nil => simp
  | cons a l ih =>
    rw [List.map_cons, List.map_cons, List.cons_lt_cons_iff, ih]
    constructor
    · rintro (hlt | ⟨heq, before, i, after, rfl, hbefore, hi⟩)
      · exact ⟨[], a, l, rfl, by simp, hlt⟩
      · exact ⟨a :: before, i, after, rfl, List.forall_mem_cons.mpr ⟨heq, hbefore⟩, hi⟩
    · rintro ⟨_ | ⟨b, before⟩, i, after, hl, hbefore, hi⟩
      · cases hl
        exact .inl hi
      · cases hl
        obtain ⟨heq, hbefore⟩ := List.forall_mem_cons.mp hbefore
        exact .inr ⟨heq, before, i, after, rfl, hbefore, hi⟩

/-- **Specificity is the lexicographic order of the keys.** -/
theorem key_lt (h₁ : Applicable w gf args m₁) (h₂ : Applicable w gf args m₂)
    (hargs : gf.minargs ≤ args.length) :
    key w gf args m₁ < key w gf args m₂ ↔ MoreSpecific w gf args m₁ m₂ := by
  rw [key, key, map_lt_map_iff]
  refine exists_congr fun before => exists_congr fun i => exists_congr fun after =>
    and_congr_right fun hprecedence => ?_
  have hmem : ∀ j ∈ before ++ i :: after, j < gf.minargs := fun j hj =>
    mem_precedence.mp (hprecedence ▸ hj)
  refine and_congr (forall₂_congr fun j hj => ?_) ?_
  · exact rankAt_inj h₁ h₂ hargs (hmem j (by simp [hj]))
  · obtain ⟨spec₁, arg, hspec₁, harg, -, hrank₁⟩ := h₁.get hargs (hmem i (by simp))
    obtain ⟨spec₂, arg', hspec₂, harg', -, hrank₂⟩ := h₂.get hargs (hmem i (by simp))
    obtain rfl : arg = arg' := Option.some.inj (harg.symm.trans harg')
    rw [hrank₁, hrank₂, hspec₁, hspec₂, harg, rank_lt]
    constructor
    · intro h
      exact ⟨spec₁, spec₂, arg, rfl, rfl, rfl, h⟩
    · rintro ⟨_, _, _, ⟨⟩, ⟨⟩, ⟨⟩, h⟩
      exact h

end Key

/-! ## The sorted methods -/

section Sorted

variable [DecidableEq Obj] {w : Objects Obj Cls} {gf : GenericFunction Obj Cls} {args : List Obj}

omit [DecidableEq Obj] [DecidableEq Cls] in
theorem requiredClasses_ok (hargs : gf.minargs ≤ args.length) :
    requiredClasses w gf args = .ok ((args.take gf.minargs).map w.classOf) :=
  if_neg (by omega)

variable {m₁ m₂ : Method Obj Cls}

variable (w gf args m₁ m₂) in
/-- What the loops of `std-method-more-specific-p` go through. -/
def triples : List (Specializer Obj Cls × Specializer Obj Cls × Cls) :=
  m₁.specializers.zip (m₂.specializers.zip ((args.take gf.minargs).map w.classOf))

theorem moreSpecificFrom_cons (spec₁ spec₂ : Specializer Obj Cls) (c : Cls)
    (rest : List (Specializer Obj Cls × Specializer Obj Cls × Cls)) :
    moreSpecificFrom w ((spec₁, spec₂, c) :: rest) =
      if spec₁ = spec₂ then moreSpecificFrom w rest
      else
        match spec₁, spec₂ with
        | .eql _, _ => true
        | _, .eql _ => false
        | .cls c₁, .cls c₂ => subSpecializerP w c₁ c₂ c := by
  cases spec₁ <;> cases spec₂ <;> rfl

theorem moreSpecificFrom_iff (h₁ : Applicable w gf args m₁) (h₂ : Applicable w gf args m₂)
    (hargs : gf.minargs ≤ args.length) {is : List ℕ} (his : ∀ i ∈ is, i < gf.minargs) :
    moreSpecificFrom w (is.filterMap ((triples w gf args m₁ m₂)[·]?)) = true ↔
      is.map (rankAt w args m₁) < is.map (rankAt w args m₂) := by
  induction is with
  | nil => simp [moreSpecificFrom]
  | cons i is ih =>
    obtain ⟨hi, his⟩ := List.forall_mem_cons.mp his
    obtain ⟨spec₁, arg, hspec₁, harg, hmatch₁, hrank₁⟩ := h₁.get hargs hi
    obtain ⟨spec₂, arg', hspec₂, harg', hmatch₂, hrank₂⟩ := h₂.get hargs hi
    obtain rfl : arg = arg' := Option.some.inj (harg.symm.trans harg')
    have hclass : ((args.take gf.minargs).map w.classOf)[i]? = some (w.classOf arg) := by
      rw [List.getElem?_map, List.getElem?_take_of_lt hi, harg]
      rfl
    have hget : (triples w gf args m₁ m₂)[i]? = some (spec₁, spec₂, w.classOf arg) :=
      List.getElem?_zip_eq_some.mpr ⟨hspec₁, List.getElem?_zip_eq_some.mpr ⟨hspec₂, hclass⟩⟩
    rw [List.filterMap_cons_some hget, List.map_cons, List.map_cons, List.cons_lt_cons_iff,
      hrank₁, hrank₂, rank_inj hmatch₁ hmatch₂, moreSpecificFrom_cons]
    by_cases hsame : spec₁ = spec₂
    · subst hsame
      rw [if_pos rfl, ih his]
      simp
    · rw [if_neg hsame, rank_lt]
      cases spec₁ with
      | eql object₁ =>
        cases spec₂ with
        | eql object₂ => exact absurd (congrArg _ (hmatch₁.symm.trans hmatch₂)) hsame
        | cls c₂ => simp [SpecBefore]
      | cls c₁ =>
        cases spec₂ with
        | eql object₂ => simp [SpecBefore]
        | cls c₂ =>
          have hne : c₁ ≠ c₂ := fun h => hsame (congrArg _ h)
          simp [SpecBefore, hne, subSpecializerP_iff hmatch₁ hmatch₂ hne]

theorem filterMap_range {α : Type} (l : List α) :
    (List.range l.length).filterMap (l[·]?) = l := by
  induction l with
  | nil => rfl
  | cons a l ih =>
    have hzero : (fun i => (a :: l)[i]?) 0 = some a := rfl
    rw [List.length_cons, List.range_succ_eq_map, List.filterMap_cons_some hzero,
      List.filterMap_map]
    exact congrArg _ ih

/-- **The predicate compares keys.** -/
theorem stdMethodMoreSpecificP_iff (h₁ : Applicable w gf args m₁) (h₂ : Applicable w gf args m₂)
    (hargs : gf.minargs ≤ args.length) :
    stdMethodMoreSpecificP w m₁ m₂ ((args.take gf.minargs).map w.classOf)
      gf.argumentPrecedenceOrder = true ↔ key w gf args m₁ < key w gf args m₂ := by
  have hlist : (if gf.argumentPrecedenceOrder ≠ [] then
        gf.argumentPrecedenceOrder.filterMap ((triples w gf args m₁ m₂)[·]?)
      else triples w gf args m₁ m₂) = gf.precedence.filterMap ((triples w gf args m₁ m₂)[·]?) := by
    have hlength : (triples w gf args m₁ m₂).length = gf.minargs := by
      simp [triples, gf.lengths m₁ h₁.mem, gf.lengths m₂ h₂.mem, hargs]
    unfold GenericFunction.precedence
    by_cases horder : gf.argumentPrecedenceOrder = []
    · rw [if_neg (not_not.mpr horder), if_pos horder, ← hlength, filterMap_range]
    · rw [if_pos horder, if_neg horder]
  rw [key, key, ← moreSpecificFrom_iff h₁ h₂ hargs fun i hi => mem_precedence.mp hi, ← hlist]
  rfl

theorem mem_applicable (hargs : gf.minargs ≤ args.length) {m : Method Obj Cls} :
    m ∈ (gf.methods.filter fun m => methodApplicableP w m.specializers args).reverse ↔
      Applicable w gf args m := by
  rw [List.mem_reverse, List.mem_filter]
  constructor
  · rintro ⟨hmem, h⟩
    have hlength := gf.lengths m hmem
    exact ⟨hmem, (methodApplicableP_iff (by omega)).mp h⟩
  · rintro ⟨hmem, h⟩
    have hlength := gf.lengths m hmem
    exact ⟨hmem, (methodApplicableP_iff (by omega)).mpr h⟩

omit [DecidableEq Obj] [DecidableEq Cls] in
theorem GenericFunction.nodup (gf : GenericFunction Obj Cls) : gf.methods.Nodup := by
  refine gf.different.imp ?_
  rintro m m' hne rfl
  exact hne ⟨rfl, rfl⟩

omit [DecidableEq Obj] [DecidableEq Cls] in
/-- Of two methods with the same qualifiers and specializers one would have replaced the other. -/
theorem GenericFunction.eq_of_same (gf : GenericFunction Obj Cls) {m m' : Method Obj Cls}
    (hm : m ∈ gf.methods) (hm' : m' ∈ gf.methods) (h : m.Same m') : m = m' := by
  have hsymm : Std.Symm fun m m' : Method Obj Cls => ¬m.Same m' :=
    ⟨fun _ _ hne h => hne ⟨h.1.symm, h.2.symm⟩⟩
  by_contra hne
  exact gf.different.forall hm hm' hne h

/-- **`compute-applicable-methods`.** -/
theorem computeApplicableMethods_spec (hargs : gf.minargs ≤ args.length) :
    ∃ applicable, computeApplicableMethods w gf args = .ok applicable ∧ applicable.Nodup ∧
      (∀ m, m ∈ applicable ↔ Applicable w gf args m) ∧
      applicable.Pairwise fun m₁ m₂ => key w gf args m₁ ≤ key w gf args m₂ := by
  have hmem := fun m => mem_applicable (w := w) (m := m) hargs
  have hnodup :
      (gf.methods.filter fun m => methodApplicableP w m.specializers args).reverse.Nodup :=
    List.nodup_reverse.mpr (gf.nodup.filter _)
  rw [computeApplicableMethods, requiredClasses_ok hargs]
  dsimp only
  generalize (gf.methods.filter fun m => methodApplicableP w m.specializers args).reverse =
    methods at *
  match methods with
  | [] => exact ⟨[], rfl, hnodup, hmem, .nil⟩
  | [m] => exact ⟨[m], rfl, hnodup, hmem, List.pairwise_singleton _ _⟩
  | m₁ :: m₂ :: methods =>
    have hcompares : Compares
        (fun m₁ m₂ => stdMethodMoreSpecificP w m₁ m₂ ((args.take gf.minargs).map w.classOf)
          gf.argumentPrecedenceOrder) (key w gf args) (· ∈ m₁ :: m₂ :: methods) :=
      fun a b ha hb => stdMethodMoreSpecificP_iff ((hmem a).mp ha) ((hmem b).mp hb) hargs
    have hperm := sort_perm hcompares
    refine ⟨_, rfl, hperm.nodup_iff.mpr hnodup, fun m => ?_, sort_sorted hcompares⟩
    rw [hperm.mem_iff]
    exact hmem m

end Sorted

end Xcl.MethodCombination
