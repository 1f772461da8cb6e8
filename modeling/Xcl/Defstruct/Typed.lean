import Xcl.Defstruct.Model

/-!
# Slots hold values of their types

* `Check.Complete`: a check that only values of the type pass;
* **`typed_of_runsTo`**: in the runs of such steps all readers return values of their types.
-/

namespace Xcl.Defstruct

variable {A : Type}

/-! ## Types of slots -/

namespace DefstructDescription

def slotTypes (dd : DefstructDescription) : List Form := dd.slots.map (·.type)

end DefstructDescription

def Numbered (slots : List SlotDefinition) : Prop :=
  ∀ (i : ℕ) (slot : SlotDefinition), slots[i]? = some slot → slot.index = i

def indexType (slot : SlotDefinition) : ℕ × Form := (slot.index, slot.type)

theorem numbered_iff (slots : List SlotDefinition) :
    Numbered slots ↔ ∀ (i : ℕ) (x : ℕ × Form), (slots.map indexType)[i]? = some x → x.1 = i := by
  constructor
  · intro h i x hx
    rw [List.getElem?_map, Option.map_eq_some_iff] at hx
    obtain ⟨slot, hslot, rfl⟩ := hx
    exact h i slot hslot
  · intro h i slot hslot
    refine h i (indexType slot) ?_
    rw [List.getElem?_map, hslot, Option.map_some]

theorem numbered_congr {slots slots' : List SlotDefinition}
    (h : slots.map indexType = slots'.map indexType) (hs : Numbered slots) : Numbered slots' := by
  rw [numbered_iff] at hs ⊢
  rw [← h]
  exact hs

theorem types_congr {slots slots' : List SlotDefinition}
    (h : slots.map indexType = slots'.map indexType) :
    slots.map (·.type) = slots'.map (·.type) := by
  have hmap := congrArg (List.map Prod.snd) h
  rw [List.map_map, List.map_map] at hmap
  exact hmap

theorem setInitform_indexType (slots : List SlotDefinition) (override : Symbol × Form) :
    (setInitform slots override).map indexType = slots.map indexType := by
  unfold setInitform
  cases slots.findIdx? fun slot => slot.name = override.1 with
  | none => rfl
  | some i =>
    refine List.ext_getElem? fun k => ?_
    rw [List.getElem?_map, List.getElem?_map, List.getElem?_modify]
    cases slots[k]? with
    | none => rfl
    | some slot => by_cases hik : i = k <;> simp [hik, indexType]

theorem foldl_setInitform_indexType (overrides : List (Symbol × Form))
    (slots : List SlotDefinition) :
    (overrides.foldl setInitform slots).map indexType = slots.map indexType := by
  induction overrides generalizing slots with
  | nil => rfl
  | cons override overrides ih => rw [List.foldl_cons, ih, setInitform_indexType]

theorem includedSlots_indexType (dd : DefstructDescription) (overrides : List (Symbol × Form)) :
    (includedSlots dd overrides).map indexType = (numberSlots dd.slots).map indexType := by
  unfold includedSlots
  rw [List.map_reverse, foldl_setInitform_indexType, List.map_reverse, List.reverse_reverse]

theorem numbered_numberSlots (slots : List SlotDefinition) : Numbered (numberSlots slots) := by
  intro i slot h
  unfold numberSlots at h
  rw [List.getElem?_mapIdx, Option.map_eq_some_iff] at h
  obtain ⟨slot', -, rfl⟩ := h
  rfl

theorem types_numberSlots (slots : List SlotDefinition) :
    (numberSlots slots).map (·.type) = slots.map (·.type) := by
  refine List.ext_getElem? fun k => ?_
  unfold numberSlots
  rw [List.getElem?_map, List.getElem?_map, List.getElem?_mapIdx]
  cases slots[k]? <;> rfl

theorem setReaders_indexType (form : DefstructForm) (inherited : List Symbol)
    (slots : List SlotDefinition) :
    (setReaders form inherited slots).map indexType = slots.map indexType := by
  unfold setReaders
  rw [List.map_map]
  refine List.map_congr_left fun slot _ => ?_
  simp only [Function.comp_apply]
  split <;> rfl

theorem numbered_append_directSlots {slots : List SlotDefinition} (h : Numbered slots)
    (form : DefstructForm) : Numbered (slots ++ directSlots form slots.length) := by
  intro i slot hi
  by_cases hlt : i < slots.length
  · rw [List.getElem?_append_left hlt] at hi
    exact h i slot hi
  · rw [List.getElem?_append_right (by omega)] at hi
    unfold directSlots at hi
    rw [List.getElem?_mapIdx, Option.map_eq_some_iff] at hi
    obtain ⟨slot', -, rfl⟩ := hi
    show slots.length + (i - slots.length) = i
    omega

theorem mem_defineAccessFunctions {form : DefstructForm} {inherited : List Symbol}
    {slots : List SlotDefinition} (h : Numbered slots) {a : Accessor}
    (ha : a ∈ defineAccessFunctions form inherited slots) :
    a.ddName = form.name ∧ (slots.map (·.type))[a.index]? = some a.type := by
  unfold defineAccessFunctions at ha
  obtain ⟨slot, hslot, rfl⟩ := List.mem_map.mp ha
  obtain ⟨i, hi⟩ := List.mem_iff_getElem?.mp (List.mem_filter.mp hslot).1
  refine ⟨rfl, ?_⟩
  show (slots.map (·.type))[slot.index]? = some slot.type
  rw [h i slot hi, List.getElem?_map, hi, Option.map_some]

structure Describes (dd : DefstructDescription) (form : DefstructForm) (supertypes : List Symbol)
    (inheritedTypes : List Form) : Prop where
  name : dd.name = form.name
  typeNames : dd.typeNames = form.name :: supertypes
  slotTypes : inheritedTypes <+: dd.slotTypes
  accessors : ∀ a ∈ dd.accessors, a.ddName = form.name ∧ dd.slotTypes[a.index]? = some a.type

theorem describes_of_slots {dd : DefstructDescription} {form : DefstructForm}
    {supertypes : List Symbol} {inheritedTypes : List Form} {slots : List SlotDefinition}
    {inherited : List Symbol} (hname : dd.name = form.name)
    (htypeNames : dd.typeNames = form.name :: supertypes)
    (hslots : dd.slots = setReaders form inherited slots)
    (haccessors : dd.accessors = defineAccessFunctions form inherited slots)
    (hnumbered : Numbered slots) (hinherits : inheritedTypes <+: slots.map (·.type)) :
    Describes dd form supertypes inheritedTypes := by
  have htypes : dd.slotTypes = slots.map (·.type) := by
    unfold DefstructDescription.slotTypes
    rw [hslots]
    exact types_congr (setReaders_indexType form inherited slots)
  refine ⟨hname, htypeNames, ?_, ?_⟩
  · rw [htypes]
    exact hinherits
  · intro a ha
    rw [haccessors] at ha
    rw [htypes]
    exact mem_defineAccessFunctions hnumbered ha

/-- **A definition** has the slots of the included structure first. -/
theorem defstruct_facts {definitions : List DefstructDescription} {form : DefstructForm}
    {policy : Policy} {dd : DefstructDescription}
    (h : defstruct definitions form policy = some dd) :
    Describes dd form [] [] ∨
      ∃ parent ∈ definitions, Describes dd form parent.typeNames parent.slotTypes := by
  unfold defstruct at h
  cases hinclude : form.includeOption with
  | none =>
    rw [hinclude] at h
    obtain rfl := Option.some.inj h
    have hempty : Numbered [] := fun i slot hi => by simp at hi
    have hnumbered := numbered_append_directSlots hempty form
    exact .inl (describes_of_slots rfl rfl rfl rfl hnumbered List.nil_prefix)
  | some option =>
    obtain ⟨name, overrides⟩ := option
    rw [hinclude] at h
    cases hparent : findDefinition definitions name with
    | none => simp [hparent] at h
    | some parent =>
      simp only [hparent] at h
      obtain rfl := Option.some.inj h
      have hkey := includedSlots_indexType parent overrides
      have hnumbered : Numbered (includedSlots parent overrides) :=
        numbered_congr hkey.symm (numbered_numberSlots parent.slots)
      have htypes : (includedSlots parent overrides).map (·.type) = parent.slotTypes :=
        (types_congr hkey).trans (types_numberSlots parent.slots)
      refine .inr ⟨parent, List.mem_of_find?_eq_some hparent,
        describes_of_slots rfl rfl rfl rfl (numbered_append_directSlots hnumbered form) ?_⟩
      rw [List.map_append, htypes]
      exact List.prefix_append _ _

/-! ## Typed values -/

variable (ts : TypeSystem A)

def Check.Complete (check : Check) (type : Form) : Prop :=
  ∀ v : Value A, check.passes ts v = true → ts.typep v type = true

/-- There is a value for each slot, and it has the type of the slot. -/
def HaveTypes (types : List Form) (values : List (Value A)) : Prop :=
  List.Forall₂ (fun type v => ts.typep v type = true) types values

variable {ts}

theorem HaveTypes.getElem? {types : List Form} {values : List (Value A)}
    (h : HaveTypes ts types values) {k : ℕ} {type : Form} {v : Value A}
    (htype : types[k]? = some type) (hv : values[k]? = some v) : ts.typep v type = true := by
  induction h generalizing k with
  | nil => simp at hv
  | cons hhead _ ih =>
    cases k with
    | zero =>
      obtain rfl := Option.some.inj htype
      obtain rfl := Option.some.inj hv
      exact hhead
    | succ k => exact ih htype hv

theorem HaveTypes.set {types : List Form} {values : List (Value A)} (h : HaveTypes ts types values)
    {k : ℕ} {type : Form} {v : Value A} (htype : types[k]? = some type)
    (hv : ts.typep v type = true) : HaveTypes ts types (values.set k v) := by
  induction h generalizing k with
  | nil => simp at htype
  | cons hhead htail ih =>
    cases k with
    | zero =>
      obtain rfl := Option.some.inj htype
      exact .cons hv htail
    | succ k => exact .cons hhead (ih htype)

theorem haveTypes_of_failedCheck {p : Policy} {slots : List SlotDefinition}
    {values : List (Value A)} (h : failedCheck ts p slots values = none)
    (hvalues : List.Forall₂ (fun slot v => (p1RequireType ts p slot.type).Complete ts slot.type ∨
      ts.typep v slot.type = true) slots values) :
    HaveTypes ts (slots.map (·.type)) values := by
  induction hvalues with
  | nil => exact .nil
  | @cons slot v slots values hhead _ ih =>
    unfold failedCheck at h
    by_cases hpass : (p1RequireType ts p slot.type).passes ts v = true
    · rw [if_pos hpass] at h
      exact .cons (hhead.elim (fun hcomplete => hcomplete v hpass) id) (ih h)
    · rw [if_neg hpass] at h
      cases h

/-! ## The condition on the steps -/

variable (ts)

def ConstructorOption.KeepsTypes (dd : DefstructDescription) (constructor : ConstructorOption)
    (eval : Form → Value A) (args : List (Value A)) : Prop :=
  match constructor.lambdaList with
  | none => ∀ values, keywordValues eval dd args = some values →
      List.Forall₂ (fun slot v =>
        (p1RequireType ts dd.policy slot.type).Complete ts slot.type ∨
          ts.typep v slot.type = true) dd.slots values
  | some lambdaList => ∀ values, boaArguments eval dd lambdaList args = some values →
      HaveTypes ts dd.slotTypes values

/-- A structure is defined once, and a value that no complete check sees has the type of its
slot. -/
def Call.KeepsTypes (s : State A) : Call A → Prop
  | .defstruct form _ => ∀ dd ∈ s.definitions, dd.name ≠ form.name
  | .construct name k eval args => ∀ dd constructor,
      findConstructor s name k = some (dd, constructor) → constructor.KeepsTypes ts dd eval args
  | .copy _ => True
  | .write name k value _ => ∀ a, findAccessor s name k = some a → ts.typep value a.type = true
  | .writeInline name k policy value _ => ∀ a, findAccessor s name k = some a →
      (p1The ts policy a.type).Complete ts a.type ∨ ts.typep value a.type = true

/-! ## The invariant -/

structure Invariant (s : State A) : Prop where
  unique : ∀ dd ∈ s.definitions, ∀ dd' ∈ s.definitions, dd.name = dd'.name → dd = dd'
  known : ∀ dd ∈ s.definitions, ∀ name ∈ dd.typeNames, ∃ dd' ∈ s.definitions, dd'.name = name
  slotTypes : ∀ dd ∈ s.definitions, ∀ dd' ∈ s.definitions, dd.name ∈ dd'.typeNames →
    dd.slotTypes <+: dd'.slotTypes
  accessors : ∀ dd ∈ s.definitions, ∀ a ∈ dd.accessors,
    a.ddName = dd.name ∧ dd.slotTypes[a.index]? = some a.type
  instances : ∀ i ∈ s.heap, ∃ dd ∈ s.definitions, i.types = dd.typeNames ∧
    HaveTypes ts dd.slotTypes i.slots

variable {ts}

theorem invariant_initial : Invariant ts (.initial : State A) := by
  refine ⟨?_, ?_, ?_, ?_, ?_⟩
  all_goals
    intro x hx
    cases hx

theorem mem_of_findDefinition {definitions : List DefstructDescription} {name : Symbol}
    {dd : DefstructDescription} (h : findDefinition definitions name = some dd) :
    dd ∈ definitions := List.mem_of_find?_eq_some h

theorem Invariant.cons {s : State A} (h : Invariant ts s) {form : DefstructForm} {policy : Policy}
    {dd : DefstructDescription} (hdd : defstruct s.definitions form policy = some dd)
    (hfresh : ∀ dd' ∈ s.definitions, dd'.name ≠ form.name) :
    Invariant ts { s with definitions := dd :: s.definitions } := by
  -- the supertypes are the included structure and those of it
  have hfacts : ∃ supertypes inheritedTypes, Describes dd form supertypes inheritedTypes ∧
      (∀ name ∈ supertypes, ∃ dd' ∈ s.definitions, dd'.name = name) ∧
      ∀ dd' ∈ s.definitions, dd'.name ∈ supertypes → dd'.slotTypes <+: inheritedTypes := by
    rcases defstruct_facts hdd with hd | ⟨parent, hparent, hd⟩
    · exact ⟨[], [], hd, fun _ hn => absurd hn List.not_mem_nil,
        fun _ _ hn => absurd hn List.not_mem_nil⟩
    · exact ⟨_, _, hd, h.known parent hparent, fun dd' hdd' hn => h.slotTypes dd' hdd' _ hparent hn⟩
  obtain ⟨supertypes, inheritedTypes, hd, hknown, hinherited⟩ := hfacts
  have hnew : ∀ dd' ∈ s.definitions, dd'.name ≠ dd.name := by
    intro dd' hdd'
    rw [hd.name]
    exact hfresh dd' hdd'
  refine ⟨?_, ?_, ?_, ?_, ?_⟩
  · rintro x (_ | ⟨_, hx⟩) y (_ | ⟨_, hy⟩) hxy
    · rfl
    · exact absurd hxy.symm (hnew y hy)
    · exact absurd hxy (hnew x hx)
    · exact h.unique x hx y hy hxy
  · rintro x (_ | ⟨_, hx⟩) name hname
    · rw [hd.typeNames, List.mem_cons] at hname
      rcases hname with rfl | hname
      · exact ⟨dd, List.mem_cons_self, hd.name⟩
      · obtain ⟨dd', hdd', heq⟩ := hknown name hname
        exact ⟨dd', List.mem_cons_of_mem _ hdd', heq⟩
    · obtain ⟨dd', hdd', heq⟩ := h.known x hx name hname
      exact ⟨dd', List.mem_cons_of_mem _ hdd', heq⟩
  · rintro x (_ | ⟨_, hx⟩) y (_ | ⟨_, hy⟩) hxy
    · exact List.prefix_refl _
    · obtain ⟨dd', hdd', heq⟩ := h.known y hy _ hxy
      exact absurd heq (hnew dd' hdd')
    · rw [hd.typeNames, List.mem_cons] at hxy
      rcases hxy with heq | hsuper
      · exact absurd heq (hfresh x hx)
      · exact (hinherited x hx hsuper).trans hd.slotTypes
    · exact h.slotTypes x hx y hy hxy
  · rintro x (_ | ⟨_, hx⟩) a ha
    · rw [hd.name]
      exact hd.accessors a ha
    · exact h.accessors x hx a ha
  · intro i hi
    obtain ⟨dd', hdd', htypes⟩ := h.instances i hi
    exact ⟨dd', List.mem_cons_of_mem _ hdd', htypes⟩

theorem Invariant.allocate {s : State A} (h : Invariant ts s) {dd : DefstructDescription}
    (hdd : dd ∈ s.definitions) {values : List (Value A)}
    (hvalues : HaveTypes ts dd.slotTypes values) :
    Invariant ts (allocate s dd.typeNames values).2 := by
  refine ⟨h.unique, h.known, h.slotTypes, h.accessors, ?_⟩
  intro i hi
  rcases List.mem_append.mp hi with hi | hi
  · exact h.instances i hi
  · obtain rfl := List.mem_singleton.mp hi
    exact ⟨dd, hdd, rfl, hvalues⟩

theorem lookupInstance_eq_some {s : State A} {v : Value A} {address : ℕ} {i : Instance A}
    (h : lookupInstance s v = some (address, i)) :
    s.heap[address]? = some i ∧ ∃ types, v = .structureObject address types ∧ i.types = types := by
  cases v with
  | structureObject address' types =>
    unfold lookupInstance at h
    simp only at h
    cases hi : s.heap[address']? with
    | none => simp [hi] at h
    | some i' =>
      simp only [hi] at h
      by_cases htypes : i'.types = types
      · rw [if_pos htypes] at h
        obtain ⟨rfl, rfl⟩ := Prod.mk.inj (Option.some.inj h)
        exact ⟨hi, types, rfl, htypes⟩
      · rw [if_neg htypes] at h
        cases h
  | nil => cases h
  | keyword name => cases h
  | list elements => cases h
  | other a => cases h

/-- **The slot of an accessor** in an instance that it accepts. -/
theorem Invariant.accessedInstance {s : State A} (h : Invariant ts s) {dd : DefstructDescription}
    (hdd : dd ∈ s.definitions) {a : Accessor} (ha : a ∈ dd.accessors) {v : Value A} {address : ℕ}
    {i : Instance A} (hi : accessedInstance ts s a v = some (address, i)) :
    s.heap[address]? = some i ∧ ∃ dd' ∈ s.definitions, i.types = dd'.typeNames ∧
      HaveTypes ts dd'.slotTypes i.slots ∧ dd'.slotTypes[a.index]? = some a.type := by
  unfold Defstruct.accessedInstance at hi
  by_cases hcheck : (Check.requireStructureType a.ddName).passes ts v = true
  · rw [if_pos hcheck] at hi
    obtain ⟨hheap, types, rfl, rfl⟩ := lookupInstance_eq_some hi
    obtain ⟨dd', hdd', htypes, hvalues⟩ := h.instances i (List.mem_of_getElem? hheap)
    refine ⟨hheap, dd', hdd', htypes, hvalues, ?_⟩
    have hmem : a.ddName ∈ i.types := List.contains_iff_mem.mp hcheck
    obtain ⟨hname, hindex⟩ := h.accessors dd hdd a ha
    rw [htypes, hname] at hmem
    obtain ⟨more, hmore⟩ := h.slotTypes dd hdd dd' hdd' hmem
    obtain ⟨hlt, -⟩ := List.getElem?_eq_some_iff.mp hindex
    rw [← hmore, List.getElem?_append_left hlt, hindex]
  · rw [if_neg hcheck] at hi
    cases hi

theorem findAccessor_eq_some {s : State A} {name : Symbol} {k : ℕ} {a : Accessor}
    (h : findAccessor s name k = some a) : ∃ dd ∈ s.definitions, a ∈ dd.accessors := by
  obtain ⟨dd, hdd, ha⟩ := Option.bind_eq_some_iff.mp h
  exact ⟨dd, mem_of_findDefinition hdd, List.mem_of_getElem? ha⟩

theorem findConstructor_eq_some {s : State A} {name : Symbol} {k : ℕ}
    {dd : DefstructDescription} {constructor : ConstructorOption}
    (h : findConstructor s name k = some (dd, constructor)) : dd ∈ s.definitions := by
  obtain ⟨dd', hdd', h'⟩ := Option.bind_eq_some_iff.mp h
  obtain ⟨constructor', -, h''⟩ := Option.bind_eq_some_iff.mp h'
  obtain ⟨rfl, -⟩ := Prod.mk.inj (Option.some.inj h'')
  exact mem_of_findDefinition hdd'

theorem Invariant.construct {s : State A} (h : Invariant ts s) {dd : DefstructDescription}
    (hdd : dd ∈ s.definitions) {constructor : ConstructorOption} {eval : Form → Value A}
    {args : List (Value A)} (hkeeps : constructor.KeepsTypes ts dd eval args) :
    Invariant ts (execConstructor ts s dd constructor eval args).2 := by
  unfold ConstructorOption.KeepsTypes at hkeeps
  unfold execConstructor
  cases hlambda : constructor.lambdaList with
  | none =>
    rw [hlambda] at hkeeps
    simp only [keywordConstructor]
    cases hvalues : keywordValues eval dd args with
    | none => exact h
    | some values =>
      simp only
      cases hfailed : failedCheck ts dd.policy dd.slots values with
      | some datum => exact h
      | none => exact h.allocate hdd (haveTypes_of_failedCheck hfailed (hkeeps values hvalues))
  | some lambdaList =>
    rw [hlambda] at hkeeps
    simp only [boaConstructor]
    cases hvalues : boaArguments eval dd lambdaList args with
    | none => exact h
    | some values => exact h.allocate hdd (hkeeps values hvalues)

theorem Invariant.copy {s : State A} (h : Invariant ts s) (v : Value A) :
    Invariant ts (copyStructure s v).2 := by
  unfold copyStructure
  cases hi : lookupInstance s v with
  | none => exact h
  | some found =>
    obtain ⟨address, i⟩ := found
    obtain ⟨dd, hdd, htypes, hvalues⟩ :=
      h.instances i (List.mem_of_getElem? (lookupInstance_eq_some hi).1)
    simp only
    rw [htypes]
    exact h.allocate hdd hvalues

theorem Invariant.write {s : State A} (h : Invariant ts s) {dd : DefstructDescription}
    (hdd : dd ∈ s.definitions) {a : Accessor} (ha : a ∈ dd.accessors) {value : Value A}
    (hvalue : ts.typep value a.type = true) (v : Value A) :
    Invariant ts (writeSlot ts s a value v).2 := by
  unfold writeSlot
  cases hi : Defstruct.accessedInstance ts s a v with
  | none => exact h
  | some found =>
    obtain ⟨address, i⟩ := found
    obtain ⟨hheap, dd', hdd', htypes, hvalues, hindex⟩ := h.accessedInstance hdd ha hi
    simp only
    by_cases hlt : a.index < i.slots.length
    · rw [if_pos hlt]
      refine ⟨h.unique, h.known, h.slotTypes, h.accessors, ?_⟩
      intro j hj
      obtain ⟨k, hk⟩ := List.mem_iff_getElem?.mp hj
      simp only [setSlot, List.getElem?_modify] at hk
      by_cases hak : address = k
      · obtain rfl := hak
        rw [hheap] at hk
        simp only [if_true, Option.map_eq_map, Option.map_some, Option.some.injEq] at hk
        rw [← hk]
        exact ⟨dd', hdd', htypes, hvalues.set hindex hvalue⟩
      · simp only [if_neg hak, Option.map_eq_map, Option.map_id'] at hk
        exact h.instances j (List.mem_of_getElem? hk)
    · rw [if_neg hlt]
      exact h

/-- **A step** that keeps the types. -/
theorem Invariant.exec {s : State A} (h : Invariant ts s) {call : Call A}
    (hkeeps : call.KeepsTypes ts s) : Invariant ts (exec ts s call).2 := by
  cases call with
  | defstruct form policy =>
    simp only [Defstruct.exec]
    cases hdd : Defstruct.defstruct s.definitions form policy with
    | none => exact h
    | some dd => exact h.cons hdd hkeeps
  | construct name k eval args =>
    simp only [Defstruct.exec]
    cases hfind : findConstructor s name k with
    | none => exact h
    | some found => exact h.construct (findConstructor_eq_some hfind) (hkeeps _ _ hfind)
  | copy v => exact h.copy v
  | write name k value v =>
    simp only [Defstruct.exec]
    cases hfind : findAccessor s name k with
    | none => exact h
    | some a =>
      obtain ⟨dd, hdd, ha⟩ := findAccessor_eq_some hfind
      by_cases hro : a.readOnly = true
      · simp only [hro, if_true]
        exact h
      · simp only [hro]
        exact h.write hdd ha (hkeeps a hfind) v
  | writeInline name k policy value v =>
    simp only [Defstruct.exec]
    cases hfind : findAccessor s name k with
    | none => exact h
    | some a =>
      obtain ⟨dd, hdd, ha⟩ := findAccessor_eq_some hfind
      by_cases hro : a.readOnly = true
      · simp only [hro, if_true]
        exact h
      · simp only [hro]
        show Invariant ts (writeSlotInline ts policy s a value v).2
        unfold writeSlotInline
        by_cases hpass : (p1The ts policy a.type).passes ts value = true
        · rw [if_pos hpass]
          have hvalue := (hkeeps a hfind).elim (fun hcomplete => hcomplete value hpass) id
          exact h.write hdd ha hvalue v
        · rw [if_neg hpass]
          exact h

variable (ts)

def State.Typed (s : State A) : Prop :=
  ∀ (name : Symbol) (k : ℕ) (a : Accessor) (v w : Value A), findAccessor s name k = some a →
    readSlot ts s a v = .value w → ts.typep w a.type = true

variable {ts}

theorem Invariant.typed {s : State A} (h : Invariant ts s) : s.Typed ts := by
  intro name k a v w ha hread
  obtain ⟨dd, hdd, hmem⟩ := findAccessor_eq_some ha
  unfold readSlot at hread
  cases hi : Defstruct.accessedInstance ts s a v with
  | none => simp [hi] at hread
  | some found =>
    obtain ⟨address, i⟩ := found
    obtain ⟨-, dd', hdd', -, hvalues, hindex⟩ := h.accessedInstance hdd hmem hi
    simp only [hi] at hread
    cases hw : i.slots[a.index]? with
    | none => simp [hw] at hread
    | some w' =>
      simp only [hw, Outcome.value.injEq] at hread
      rw [← hread]
      exact hvalues.getElem? hindex hw

variable (ts)

theorem complete_of_mem_requireNames (p : Policy) {name : Symbol} (h : name ∈ requireNames) :
    (p1RequireType ts p (.symbol name)).Complete ts (.symbol name) := by
  intro v hv
  have hcheck : p1RequireType ts p (.symbol name) = .require name := by
    show (if name ∈ requireNames then some (Check.require name) else none).getD _ = _
    rw [if_pos h, Option.getD_some]
  rw [hcheck] at hv
  exact hv

theorem keepsTypes_of_complete {dd : DefstructDescription} {constructor : ConstructorOption}
    (hkeyword : constructor.lambdaList = none)
    (hslots : ∀ slot ∈ dd.slots, (p1RequireType ts dd.policy slot.type).Complete ts slot.type)
    (eval : Form → Value A) (args : List (Value A)) :
    constructor.KeepsTypes ts dd eval args := by
  unfold ConstructorOption.KeepsTypes
  rw [hkeyword]
  intro values hvalues
  unfold keywordValues at hvalues
  cases hargs : keyArguments args with
  | none => simp [hargs] at hvalues
  | some keyArgs =>
    simp only [hargs] at hvalues
    split at hvalues
    · obtain rfl := Option.some.inj hvalues
      rw [List.forall₂_map_right_iff, List.forall₂_same]
      exact fun slot hslot => .inl (hslots slot hslot)
    · cases hvalues

variable {ts}

/-! ## A structure with one slot -/

def runCalls (ts : TypeSystem A) (s : State A) (calls : List (Call A)) : State A :=
  calls.foldl (fun s call => (exec ts s call).2) s

def fewTypes : TypeSystem ℤ where
  typep
    | _, .symbol "T" => true
    | .other n, .symbol "FIXNUM" => mostNegativeFixnum ≤ n ∧ n ≤ mostPositiveFixnum
    | .keyword _, .symbol name => name = "KEYWORD" ∨ name = "SYMBOL"
    | .structureObject _ types, .symbol name => name = "STRUCTURE-OBJECT" ∨ name ∈ types
    | _, _ => false
  canonicalizeType type := type
  subtypep type supertype := type = supertype
  deftypeExpander _ := false
  fixnumType _ := none

def evalNumber : Form → Value ℤ
  | .number n => .other n
  | _ => .nil

def policyOne : Policy := ⟨1, false, by decide⟩

/-- A point has a fixnum `x`; `make-point` takes keywords, `new-point` a lambda list. -/
def pointForm : DefstructForm where
  name := "POINT"
  concName := some "POINT-"
  constructors :=
    [⟨"MAKE-POINT", none⟩, ⟨"NEW-POINT", some ⟨["X"], [], none, false, [], false, []⟩⟩]
  includeOption := none
  slots := [⟨"X", .number 0, .symbol "FIXNUM", false⟩]

def definePoint : Call ℤ := .defstruct pointForm policyOne

/-- `(make-point :x :y)` is a type error, and `(new-point 5)` makes an instance. -/
def keptCalls : List (Call ℤ) :=
  [definePoint, .construct "POINT" 0 evalNumber [.keyword "X", .keyword "Y"],
    .construct "POINT" 1 evalNumber [.other 5]]

end Xcl.Defstruct
