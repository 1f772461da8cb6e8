import Xcl.Defstruct.Access

/-!
# The descriptions and functions of a chain of structures

* `Layout`: each structure has the slots of those it includes as its first slots;
* **`Reaches.invariant`**: both hold in every state of a chain, and instances have all their slots.
-/

namespace Xcl.Defstruct.Access

variable {A : Type}

/-! ## Descriptions -/

/-- The slots of one structure are the first slots of another one. -/
def Extends (dd dd' : Description) : Prop :=
  ∀ (k : ℕ) (slot : Slot), dd.slots[k]? = some slot →
    ∃ slot' : Slot, dd'.slots[k]? = some slot' ∧ slot'.name = slot.name ∧
      slot'.readOnly = slot.readOnly

theorem Extends.refl (dd : Description) : Extends dd dd :=
  fun _ slot hslot => ⟨slot, hslot, rfl, rfl⟩

structure Layout (definitions : List Description) : Prop where
  names : (definitions.map (·.name)).Nodup
  linked : ∀ dd rest, dd :: rest <:+ definitions →
    dd.typeNames = (dd :: rest).map (·.name) ∧ dd.includeName = rest.head?.map (·.name) ∧
      ∀ dd' ∈ rest, Extends dd' dd
  indexed : ∀ dd ∈ definitions, ∀ (k : ℕ) (slot : Slot), dd.slots[k]? = some slot → slot.index = k

def Description.accessor (dd : Description) (slot : Slot) : Symbol :=
  accessorName dd.concName slot.name

/-- One slot is another one with its own reader. -/
def SameSlot (slot slot' : Slot) : Prop :=
  slot.name = slot'.name ∧ slot.initform = slot'.initform

structure Tables (s : State A) : Prop where
  accessor : ∀ dd ∈ s.definitions, ∀ slot ∈ dd.slots, dd.accessor slot ≠ "NIL" →
    ∃ owner ∈ dd.typeNames, ∃ index, (dd.accessor slot, .reader owner index) ∈ s.functions
  reader : ∀ dd ∈ s.definitions, ∀ slot ∈ dd.slots, slot.reader ≠ "NIL" →
    ∃ owner ∈ dd.typeNames, ∃ index, (slot.reader, .reader owner index) ∈ s.functions
  writer : ∀ name owner index, (name, .reader owner index) ∈ s.functions →
    ∃ dd ∈ s.definitions, dd.name = owner ∧ ∃ slot : Slot, dd.slots[index]? = some slot ∧
      (slot.readOnly = false → (name, owner, index) ∈ s.setfFunctions)
  setf : ∀ name owner index, (name, owner, index) ∈ s.setfFunctions →
    (name, .reader owner index) ∈ s.functions
  constructor : ∀ dd ∈ s.definitions, ∀ name ∈ dd.constructors,
    ∃ slots, (name, .constructor dd.typeNames slots) ∈ s.functions
  constructed : ∀ name types slots, (name, .constructor types slots) ∈ s.functions →
    ∃ dd ∈ s.definitions, dd.typeNames = types ∧ List.Forall₂ SameSlot slots dd.slots
  predicate : ∀ dd ∈ s.definitions, ∀ name ∈ dd.predicate, (name, .predicate dd.name) ∈ s.functions
  copier : ∀ dd ∈ s.definitions, ∀ name ∈ dd.copier, (name, .copier) ∈ s.functions

structure Invariant (s : State A) : Prop where
  layout : Layout s.definitions
  tables : Tables s
  heap : ∀ i ∈ s.heap, ∃ dd ∈ s.definitions, i.types = dd.typeNames ∧
    i.slots.length = dd.slots.length

/-! ## Layout -/

section Layout

variable {definitions : List Description}

theorem exists_suffix {dd : Description} (h : dd ∈ definitions) :
    ∃ rest, dd :: rest <:+ definitions := by
  obtain ⟨before, rest, rfl⟩ := List.append_of_mem h
  exact ⟨rest, List.suffix_append before _⟩

/-- The structures whose names are among the types of a structure are those it includes. -/
theorem Layout.extends_of_mem (h : Layout definitions) {dd dd' : Description}
    (hdd : dd ∈ definitions) (hdd' : dd' ∈ definitions) (hname : dd'.name ∈ dd.typeNames) :
    Extends dd' dd ∧ dd'.typeNames ⊆ dd.typeNames := by
  obtain ⟨rest, hsuffix⟩ := exists_suffix hdd
  obtain ⟨htypes, -, hextends⟩ := h.linked dd rest hsuffix
  rw [htypes, List.mem_map] at hname
  obtain ⟨dd₁, hdd₁, hname₁⟩ := hname
  have heq : dd₁ = dd' :=
    List.inj_on_of_nodup_map h.names (hsuffix.subset hdd₁) hdd' hname₁
  subst heq
  rcases List.mem_cons.mp hdd₁ with rfl | hrest
  · exact ⟨Extends.refl _, fun _ h => h⟩
  · refine ⟨hextends dd₁ hrest, ?_⟩
    obtain ⟨rest', hsuffix'⟩ := exists_suffix hrest
    have hinside : dd₁ :: rest' <:+ definitions :=
      hsuffix'.trans ((List.suffix_cons dd rest).trans hsuffix)
    rw [(h.linked dd₁ rest' hinside).1, htypes]
    exact List.map_subset _ (List.subset_cons_of_subset _ hsuffix'.subset)

theorem Layout.name_mem (h : Layout definitions) {dd : Description} (hdd : dd ∈ definitions) :
    dd.name ∈ dd.typeNames := by
  obtain ⟨rest, hsuffix⟩ := exists_suffix hdd
  rw [(h.linked dd rest hsuffix).1]
  exact List.mem_cons_self

theorem Layout.eq_of_typeNames (h : Layout definitions) {dd dd' : Description}
    (hdd : dd ∈ definitions) (hdd' : dd' ∈ definitions) (htypes : dd.typeNames = dd'.typeNames) :
    dd = dd' := by
  obtain ⟨rest, hsuffix⟩ := exists_suffix hdd
  obtain ⟨rest', hsuffix'⟩ := exists_suffix hdd'
  rw [(h.linked dd rest hsuffix).1, (h.linked dd' rest' hsuffix').1, List.map_cons,
    List.map_cons] at htypes
  exact List.inj_on_of_nodup_map h.names hdd hdd' (List.cons.inj htypes).1

/-- One structure names another one in its `:include` option. -/
def IncludesDirectly (definitions : List Description) (name name' : Symbol) : Prop :=
  ∃ dd ∈ definitions, dd.name = name ∧ dd.includeName = some name'

theorem Layout.mem_typeNames_iff (h : Layout definitions) {dd : Description}
    (hdd : dd ∈ definitions) (name : Symbol) :
    name ∈ dd.typeNames ↔
      Relation.ReflTransGen (IncludesDirectly definitions) dd.name name := by
  constructor
  · intro hname
    obtain ⟨rest, hsuffix⟩ := exists_suffix hdd
    rw [(h.linked dd rest hsuffix).1] at hname
    clear hdd
    induction rest generalizing dd with
    | nil =>
      obtain rfl := List.mem_singleton.mp hname
      exact .refl
    | cons dd' rest ih =>
      rcases List.mem_cons.mp hname with rfl | hrest
      · exact .refl
      · have hdirect : IncludesDirectly definitions dd.name dd'.name :=
          ⟨dd, hsuffix.subset List.mem_cons_self, rfl, (h.linked dd _ hsuffix).2.1⟩
        exact .head hdirect (ih hrest ((List.suffix_cons dd _).trans hsuffix))
  · intro hstar
    induction hstar with
    | refl => exact h.name_mem hdd
    | tail _ hstep ih =>
      obtain ⟨dd', hdd', rfl, hinclude⟩ := hstep
      refine (h.extends_of_mem hdd hdd' ih).2 ?_
      obtain ⟨rest, hsuffix⟩ := exists_suffix hdd'
      obtain ⟨htypes, hhead, -⟩ := h.linked dd' rest hsuffix
      rw [hinclude] at hhead
      obtain ⟨dd'', hdd'', hname⟩ := Option.map_eq_some_iff.mp hhead.symm
      rw [htypes, ← hname]
      exact List.mem_map_of_mem (List.mem_cons_of_mem _ (List.mem_of_head? hdd''))

theorem Layout.findDescription_eq (h : Layout definitions) {dd : Description}
    (hdd : dd ∈ definitions) : findDescription definitions dd.name = some dd := by
  cases hfind : findDescription definitions dd.name with
  | none => exact absurd (List.find?_eq_none.mp hfind dd hdd) (by simp)
  | some dd' =>
    have hname : dd'.name = dd.name := by simpa using List.find?_some hfind
    rw [List.inj_on_of_nodup_map h.names (List.mem_of_find?_eq_some hfind) hdd hname]

theorem Layout.includes_eq (h : Layout definitions) {dd : Description} {rest : List Description}
    (hsuffix : dd :: rest <:+ definitions) {fuel : ℕ} (hfuel : rest.length < fuel) :
    includes definitions fuel dd.name = dd :: rest := by
  obtain ⟨fuel, rfl⟩ := Nat.exists_eq_succ_of_ne_zero (Nat.ne_zero_of_lt hfuel)
  have hinclude := (h.linked dd rest hsuffix).2.1
  rw [includes, h.findDescription_eq (hsuffix.subset List.mem_cons_self)]
  induction rest generalizing dd fuel with
  | nil => simp [hinclude]
  | cons dd' rest ih =>
    have hsuffix' := (List.suffix_cons dd (dd' :: rest)).trans hsuffix
    obtain ⟨fuel, rfl⟩ := Nat.exists_eq_succ_of_ne_zero
      (Nat.ne_zero_of_lt (Nat.lt_of_succ_lt_succ hfuel))
    have htail := ih hsuffix' fuel (Nat.lt_of_succ_lt_succ hfuel) (h.linked dd' rest hsuffix').2.1
    simp only [hinclude, List.head?_cons, Option.map_some]
    rw [includes, h.findDescription_eq (hsuffix'.subset List.mem_cons_self), htail]

end Layout

/-! ## Slots of a definition -/

section Slots

/-- What another initform leaves as it is. -/
def Slot.fixed (slot : Slot) : Symbol × ℕ × Symbol × Bool :=
  (slot.name, slot.index, slot.reader, slot.readOnly)

theorem map_fixed_setInitform (slots : List Slot) (override : Symbol × Form) :
    (setInitform slots override).map Slot.fixed = slots.map Slot.fixed := by
  unfold setInitform
  split
  · rfl
  · refine List.ext_getElem? fun k => ?_
    rw [List.getElem?_map, List.getElem?_map, List.getElem?_modify]
    split
    · cases slots[k]? <;> rfl
    · simp

theorem map_fixed_foldl (slots : List Slot) (overrides : List (Symbol × Form)) :
    (overrides.foldl setInitform slots).map Slot.fixed = slots.map Slot.fixed := by
  induction overrides generalizing slots with
  | nil => rfl
  | cons override overrides ih => rw [List.foldl_cons, ih, map_fixed_setInitform]

theorem map_fixed_includedSlots (dd : Description) (overrides : List (Symbol × Form)) :
    (includedSlots dd overrides).map Slot.fixed =
      dd.slots.mapIdx fun i slot => (slot.name, i, slot.reader, slot.readOnly) := by
  rw [includedSlots, List.map_reverse, map_fixed_foldl, List.map_reverse, List.reverse_reverse]
  refine List.ext_getElem? fun k => ?_
  rw [List.getElem?_map, List.getElem?_mapIdx, List.getElem?_mapIdx]
  cases dd.slots[k]? <;> rfl

theorem length_includedSlots (dd : Description) (overrides : List (Symbol × Form)) :
    (includedSlots dd overrides).length = dd.slots.length := by
  simpa using congrArg List.length (map_fixed_includedSlots dd overrides)

theorem getElem?_includedSlots {dd : Description} {overrides : List (Symbol × Form)} {k : ℕ}
    {slot : Slot} (h : (includedSlots dd overrides)[k]? = some slot) :
    slot.index = k ∧ ∃ slot' : Slot, dd.slots[k]? = some slot' ∧ slot.name = slot'.name ∧
      slot.reader = slot'.reader ∧ slot.readOnly = slot'.readOnly := by
  have hmap := congrArg (·[k]?) (map_fixed_includedSlots dd overrides)
  simp only [List.getElem?_map, h, List.getElem?_mapIdx, Option.map_some] at hmap
  obtain ⟨slot', hslot', heq⟩ := Option.map_eq_some_iff.mp hmap.symm
  simp only [Slot.fixed, Prod.mk.injEq] at heq
  obtain ⟨hname, hindex, hreader, hreadOnly⟩ := heq
  exact ⟨hindex.symm, slot', hslot', hname.symm, hreader.symm, hreadOnly.symm⟩

theorem getElem?_offsetSlots {form : Definition} {n k : ℕ} {slot : Slot}
    (h : (offsetSlots form n)[k]? = some slot) :
    slot.index = n + k ∧ slot.name = "NIL" ∧ slot.reader = "NIL" := by
  rw [offsetSlots, List.getElem?_append, List.length_map, List.length_range] at h
  split at h
  next hlt =>
    rw [List.getElem?_map, List.getElem?_range hlt, Option.map_some] at h
    obtain rfl := Option.some.inj h
    exact ⟨rfl, rfl, rfl⟩
  next hlt =>
    split_ifs at h
    · obtain ⟨hk, rfl⟩ : k - form.initialOffset = 0 ∧ _ = slot := by
        simpa [List.getElem?_singleton] using h
      exact ⟨by simp only; omega, rfl, rfl⟩
    · simp at h

theorem getElem?_directSlots {form : Definition} {n k : ℕ} {slot : Slot}
    (h : (directSlots form n)[k]? = some slot) :
    slot.index = n + k ∧ slot.reader = accessorName form.concName slot.name := by
  rw [directSlots, List.getElem?_mapIdx] at h
  obtain ⟨slot', -, rfl⟩ := Option.map_eq_some_iff.mp h
  exact ⟨rfl, rfl⟩

theorem getElem?_allSlots {form : Definition} {included : List Slot} {k : ℕ} {slot : Slot}
    (hincluded : ∀ (k : ℕ) (slot : Slot), included[k]? = some slot → slot.index = k)
    (h : (allSlots form included)[k]? = some slot) :
    slot.index = k ∧ (included[k]? = some slot ∨ slot.reader = "NIL" ∨
      slot.reader = accessorName form.concName slot.name) := by
  rw [allSlots, List.append_assoc, List.getElem?_append] at h
  split at h
  · exact ⟨hincluded k slot h, Or.inl h⟩
  · rw [List.getElem?_append] at h
    split at h
    · obtain ⟨hindex, -, hreader⟩ := getElem?_offsetSlots h
      exact ⟨by omega, Or.inr (Or.inl hreader)⟩
    · obtain ⟨hindex, hreader⟩ := getElem?_directSlots h
      exact ⟨by omega, Or.inr (Or.inr hreader)⟩

theorem getElem?_setReaders {form : Definition} {inherited : List (Symbol × ℕ)}
    {slots : List Slot} {k : ℕ} {slot : Slot}
    (h : (setReaders form inherited slots)[k]? = some slot) :
    ∃ slot' : Slot, slots[k]? = some slot' ∧ slot.name = slot'.name ∧ slot.index = slot'.index ∧
      slot.initform = slot'.initform ∧ slot.readOnly = slot'.readOnly ∧
      (isInherited form inherited slot' = true ∧ slot.reader = slot'.reader ∨
        isInherited form inherited slot' = false ∧
          slot.reader = accessorName form.concName slot.name) := by
  rw [setReaders, List.getElem?_map] at h
  obtain ⟨slot', hslot', rfl⟩ := Option.map_eq_some_iff.mp h
  refine ⟨slot', hslot', ?_⟩
  split_ifs with hinherited
  · exact ⟨rfl, rfl, rfl, rfl, Or.inl ⟨hinherited, rfl⟩⟩
  · exact ⟨rfl, rfl, rfl, rfl, Or.inr ⟨by simpa using hinherited, rfl⟩⟩

end Slots

/-! ## One definition -/

section Define

theorem mem_defineFunctions {form : Definition} {inherited : List (Symbol × ℕ)}
    {typeNames : List Symbol} {slots : List Slot} {name : Symbol} {f : Function} :
    (name, f) ∈ defineFunctions form inherited typeNames slots ↔
      (name ∈ constructorNames form ∧ f = .constructor typeNames slots) ∨
      (name ∈ form.predicate ∧ f = .predicate form.name) ∨
      (∃ slot ∈ slots, isInherited form inherited slot = false ∧
        name = accessorName form.concName slot.name ∧ f = .reader form.name slot.index) ∨
      (name ∈ form.copier ∧ f = .copier) := by
  simp only [defineFunctions, defineConstructors, defineReaders, List.mem_append, List.mem_map,
    Prod.mk.injEq, List.mem_filter, Bool.not_eq_true', Option.mem_toList, or_assoc]
  constructor
  · rintro (⟨n, h, rfl, rfl⟩ | ⟨n, h, rfl, rfl⟩ | ⟨slot, ⟨h, hnot⟩, rfl, rfl⟩ | ⟨n, h, rfl, rfl⟩)
    · exact Or.inl ⟨h, rfl⟩
    · exact Or.inr (Or.inl ⟨h, rfl⟩)
    · exact Or.inr (Or.inr (Or.inl ⟨slot, h, hnot, rfl, rfl⟩))
    · exact Or.inr (Or.inr (Or.inr ⟨h, rfl⟩))
  · rintro (⟨h, rfl⟩ | ⟨h, rfl⟩ | ⟨slot, h, hnot, rfl, rfl⟩ | ⟨h, rfl⟩)
    · exact Or.inl ⟨name, h, rfl, rfl⟩
    · exact Or.inr (Or.inl ⟨name, h, rfl, rfl⟩)
    · exact Or.inr (Or.inr (Or.inl ⟨slot, ⟨h, hnot⟩, rfl, rfl⟩))
    · exact Or.inr (Or.inr (Or.inr ⟨name, h, rfl, rfl⟩))

theorem mem_defineWriters {form : Definition} {inherited : List (Symbol × ℕ)} {slots : List Slot}
    {name owner : Symbol} {index : ℕ} :
    (name, owner, index) ∈ defineWriters form inherited slots ↔
      ∃ slot ∈ slots, isInherited form inherited slot = false ∧ slot.readOnly = false ∧
        name = accessorName form.concName slot.name ∧ owner = form.name ∧ index = slot.index := by
  simp only [defineWriters, List.mem_map, List.mem_filter, Prod.mk.injEq, Bool.and_eq_true,
    Bool.not_eq_true']
  constructor
  · rintro ⟨slot, ⟨h, hnot, hreadOnly⟩, rfl, rfl, rfl⟩
    exact ⟨slot, h, hnot, hreadOnly, rfl, rfl, rfl⟩
  · rintro ⟨slot, h, hnot, hreadOnly, rfl, rfl, rfl⟩
    exact ⟨slot, ⟨h, hnot, hreadOnly⟩, rfl, rfl, rfl⟩

structure Base (s : State A) (form : Definition) (included : List Slot)
    (supertypes : List Symbol) : Prop where
  fresh : ∀ dd ∈ s.definitions, dd.name ≠ form.name
  inherited : inheritedAccessors s.definitions form =
    s.definitions.reverse.flatMap fun dd => dd.slots.map fun slot => (slot.reader, slot.index)
  includeName : form.includeOption.map (·.1) = s.definitions.head?.map (·.name)
  supertypes : supertypes = s.definitions.map (·.name)
  extended : ∀ dd ∈ s.definitions, ∀ (k : ℕ) (slot : Slot), dd.slots[k]? = some slot →
    ∃ slot' : Slot, included[k]? = some slot' ∧ slot'.name = slot.name ∧
      slot'.readOnly = slot.readOnly
  included : ∀ (k : ℕ) (slot : Slot), included[k]? = some slot →
    slot.index = k ∧ ∃ dd ∈ s.definitions, ∃ slot' ∈ dd.slots, slot.reader = slot'.reader

theorem Invariant.base {s s' : State A} (h : Layout s.definitions) {form : Definition}
    (hcontinues : Continues s form) (hdefine : defineStructure s form = some s') :
    ∃ included supertypes, Base s form included supertypes ∧
      s' = define s form included supertypes := by
  obtain ⟨hname, hfresh⟩ := hcontinues
  unfold defineStructure at hdefine
  cases hdefinitions : s.definitions with
  | nil =>
    rw [hdefinitions] at hname
    have hnone : form.includeOption = none := by simpa using hname
    simp only [hnone, Option.some.injEq] at hdefine
    refine ⟨[], [], ⟨hfresh, ?_, ?_, ?_, ?_, ?_⟩, hdefine.symm⟩
    all_goals simp [inheritedAccessors, hdefinitions, hnone]
  | cons dd rest =>
    have hsuffix : dd :: rest <:+ s.definitions := by rw [hdefinitions]
    have hdd : dd ∈ s.definitions := hsuffix.subset List.mem_cons_self
    rw [hdefinitions, List.head?_cons, Option.map_some, Option.map_eq_some_iff] at hname
    obtain ⟨⟨name, overrides⟩, hinclude, hname⟩ := hname
    obtain rfl : name = dd.name := hname
    simp only [hinclude, h.findDescription_eq hdd, Option.some.injEq] at hdefine
    obtain ⟨htypes, -, hextends⟩ := h.linked dd rest hsuffix
    refine ⟨includedSlots dd overrides, dd.typeNames, ⟨hfresh, ?_, ?_, ?_, ?_, ?_⟩, hdefine.symm⟩
    · simp only [inheritedAccessors, hinclude]
      rw [h.includes_eq hsuffix (by simp [hdefinitions]), hdefinitions]
    · simp [hinclude, hdefinitions]
    · rw [htypes, hdefinitions]
    · intro dd' hdd' k slot hslot
      obtain ⟨slot', hslot', hname', hreadOnly'⟩ : ∃ slot' : Slot, dd.slots[k]? = some slot' ∧
          slot'.name = slot.name ∧ slot'.readOnly = slot.readOnly := by
        rw [hdefinitions] at hdd'
        rcases List.mem_cons.mp hdd' with rfl | hrest
        · exact ⟨slot, hslot, rfl, rfl⟩
        · exact hextends dd' hrest k slot hslot
      have hlt : k < (includedSlots dd overrides).length := by
        rw [length_includedSlots]
        exact (List.getElem?_eq_some_iff.mp hslot').1
      have hincluded := List.getElem?_eq_getElem hlt
      obtain ⟨-, slot'', hslot'', hname'', -, hreadOnly''⟩ := getElem?_includedSlots hincluded
      obtain rfl : slot'' = slot' := Option.some.inj (hslot''.symm.trans hslot')
      exact ⟨_, hincluded, hname''.trans hname', hreadOnly''.trans hreadOnly'⟩
    · intro k slot hslot
      obtain ⟨hindex, slot', hslot', -, hreader, -⟩ := getElem?_includedSlots hslot
      exact ⟨hindex, dd, hdd, slot', List.mem_of_getElem? hslot', hreader⟩

variable {s : State A} {form : Definition} {included : List Slot} {supertypes : List Symbol}

theorem Base.exists_reader (hbase : Base s form included supertypes) {slot : Slot}
    (h : isInherited form (inheritedAccessors s.definitions form) slot = true) :
    ∃ dd ∈ s.definitions, ∃ slot' ∈ dd.slots,
      slot'.reader = accessorName form.concName slot.name := by
  obtain ⟨⟨name, index⟩, hmem, hname⟩ := List.lookup_isSome_iff.mp h
  rw [hbase.inherited, List.mem_flatMap] at hmem
  obtain ⟨dd, hdd, hslot⟩ := hmem
  obtain ⟨slot', hslot', heq⟩ := List.mem_map.mp hslot
  obtain ⟨rfl, rfl⟩ := Prod.mk.inj heq
  exact ⟨dd, List.mem_reverse.mp hdd, slot', hslot', (beq_iff_eq.mp hname).symm⟩

/-- The new description. -/
def described (s : State A) (form : Definition) (included : List Slot) (supertypes : List Symbol) :
    Description :=
  { name := form.name, concName := form.concName, constructors := constructorNames form,
    copier := form.copier, predicate := form.predicate,
    includeName := form.includeOption.map (·.1),
    slots := setReaders form (inheritedAccessors s.definitions form) (allSlots form included),
    typeNames := form.name :: supertypes }

theorem define_definitions (s : State A) (form : Definition) (included : List Slot)
    (supertypes : List Symbol) :
    (define s form included supertypes).definitions =
      described s form included supertypes :: s.definitions := rfl

theorem Base.extends_described (hbase : Base s form included supertypes) {dd : Description}
    (hdd : dd ∈ s.definitions) : Extends dd (described s form included supertypes) := by
  intro k slot hslot
  obtain ⟨slot', hslot', hname, hreadOnly⟩ := hbase.extended dd hdd k slot hslot
  have hall : (allSlots form included)[k]? = some slot' := by
    rw [allSlots, List.append_assoc,
      List.getElem?_append_left (List.getElem?_eq_some_iff.mp hslot').1, hslot']
  have hlt : k < (described s form included supertypes).slots.length := by
    simpa [described, setReaders] using (List.getElem?_eq_some_iff.mp hall).1
  have hset := List.getElem?_eq_getElem hlt
  obtain ⟨slot'', hslot'', hname', -, -, hreadOnly', -⟩ := getElem?_setReaders hset
  obtain rfl : slot'' = slot' := Option.some.inj (hslot''.symm.trans hall)
  exact ⟨_, hset, hname'.trans hname, hreadOnly'.trans hreadOnly⟩

theorem Layout.define (h : Layout s.definitions) (hbase : Base s form included supertypes) :
    Layout (define s form included supertypes).definitions := by
  rw [define_definitions]
  refine ⟨?_, ?_, ?_⟩
  · rw [List.map_cons, List.nodup_cons]
    refine ⟨fun hmem => ?_, h.names⟩
    obtain ⟨dd, hdd, hname⟩ := List.mem_map.mp hmem
    exact hbase.fresh dd hdd hname
  · intro dd rest hsuffix
    rcases List.suffix_cons_iff.mp hsuffix with heq | hsuffix
    · obtain ⟨rfl, rfl⟩ := List.cons.inj heq
      refine ⟨?_, hbase.includeName, fun dd' hdd' => hbase.extends_described hdd'⟩
      simp [described, hbase.supertypes]
    · exact h.linked dd rest hsuffix
  · intro dd hdd k slot hslot
    rcases List.mem_cons.mp hdd with rfl | hdd
    · obtain ⟨slot', hslot', -, hindex, -⟩ := getElem?_setReaders hslot
      rw [hindex]
      exact (getElem?_allSlots (fun k slot h => (hbase.included k slot h).1) hslot').1
    · exact h.indexed dd hdd k slot hslot

theorem mem_functions_define {name : Symbol} {f : Function} :
    (name, f) ∈ (define s form included supertypes).functions ↔
      (name, f) ∈ defineFunctions form (inheritedAccessors s.definitions form)
        (form.name :: supertypes) (allSlots form included) ∨ (name, f) ∈ s.functions := by
  simp [Access.define]

theorem mem_setfFunctions_define {name owner : Symbol} {index : ℕ} :
    (name, owner, index) ∈ (define s form included supertypes).setfFunctions ↔
      (name, owner, index) ∈ defineWriters form (inheritedAccessors s.definitions form)
        (allSlots form included) ∨ (name, owner, index) ∈ s.setfFunctions := by
  simp [Access.define]

theorem Layout.typeNames_subset (h : Layout s.definitions)
    (hbase : Base s form included supertypes) {dd : Description} (hdd : dd ∈ s.definitions) :
    dd.typeNames ⊆ (described s form included supertypes).typeNames := by
  obtain ⟨rest, hsuffix⟩ := exists_suffix hdd
  rw [(h.linked dd rest hsuffix).1]
  refine List.subset_cons_of_subset _ ?_
  rw [hbase.supertypes]
  exact List.map_subset _ hsuffix.subset

theorem Tables.exists_accessor (ht : Tables s) (hl : Layout s.definitions)
    (hbase : Base s form included supertypes) {slot : Slot} (hslot : slot ∈ allSlots form included)
    (hname : accessorName form.concName slot.name ≠ "NIL") :
    ∃ owner ∈ (described s form included supertypes).typeNames, ∃ index,
      (accessorName form.concName slot.name, .reader owner index) ∈
        (define s form included supertypes).functions := by
  cases hinherited : isInherited form (inheritedAccessors s.definitions form) slot with
  | true =>
    obtain ⟨dd, hdd, slot', hslot', hreader⟩ := hbase.exists_reader hinherited
    obtain ⟨owner, howner, index, hmem⟩ := ht.reader dd hdd slot' hslot' (hreader ▸ hname)
    exact ⟨owner, hl.typeNames_subset hbase hdd howner, index,
      mem_functions_define.mpr (Or.inr (hreader ▸ hmem))⟩
  | false =>
    exact ⟨form.name, List.mem_cons_self, slot.index, mem_functions_define.mpr (Or.inl
      (mem_defineFunctions.mpr (Or.inr (Or.inr (Or.inl ⟨slot, hslot, hinherited, rfl, rfl⟩)))))⟩

theorem mem_setReaders {inherited : List (Symbol × ℕ)} {slots : List Slot} {slot : Slot}
    (h : slot ∈ setReaders form inherited slots) :
    ∃ slot' ∈ slots, slot.name = slot'.name ∧ slot.index = slot'.index ∧
      (isInherited form inherited slot' = true ∧ slot.reader = slot'.reader ∨
        slot.reader = accessorName form.concName slot.name) := by
  obtain ⟨k, hk⟩ := List.mem_iff_getElem?.mp h
  obtain ⟨slot', hslot', hname, hindex, -, -, hreader⟩ := getElem?_setReaders hk
  exact ⟨slot', List.mem_of_getElem? hslot', hname, hindex, hreader.imp_right And.right⟩

theorem Tables.exists_reader (ht : Tables s) (hl : Layout s.definitions)
    (hbase : Base s form included supertypes) {slot : Slot}
    (hslot : slot ∈ (described s form included supertypes).slots) (hreader : slot.reader ≠ "NIL") :
    ∃ owner ∈ (described s form included supertypes).typeNames, ∃ index,
      (slot.reader, .reader owner index) ∈ (define s form included supertypes).functions := by
  obtain ⟨slot', hslot', hname, -, hcases⟩ := mem_setReaders hslot
  have haccessor : slot.reader = accessorName form.concName slot'.name →
      ∃ owner ∈ (described s form included supertypes).typeNames, ∃ index,
        (slot.reader, .reader owner index) ∈ (define s form included supertypes).functions := by
    intro heq
    rw [heq] at hreader ⊢
    exact ht.exists_accessor hl hbase hslot' hreader
  rcases hcases with ⟨-, hsame⟩ | hown
  · obtain ⟨k, hk⟩ := List.mem_iff_getElem?.mp hslot'
    rcases (getElem?_allSlots (fun k slot h => (hbase.included k slot h).1) hk).2
      with hincluded | hnil | hdirect
    · obtain ⟨-, dd, hdd, slot₀, hslot₀, hreader₀⟩ := hbase.included k slot' hincluded
      have heq : slot₀.reader = slot.reader := hreader₀.symm.trans hsame.symm
      obtain ⟨owner, howner, index, hmem⟩ := ht.reader dd hdd slot₀ hslot₀ (heq ▸ hreader)
      exact ⟨owner, hl.typeNames_subset hbase hdd howner, index,
        mem_functions_define.mpr (Or.inr (heq ▸ hmem))⟩
    · exact absurd (hsame.trans hnil) hreader
    · exact haccessor (hsame.trans hdirect)
  · exact haccessor (hname ▸ hown)

theorem Base.exists_described (hbase : Base s form included supertypes) {slot : Slot}
    (hslot : slot ∈ allSlots form included) :
    ∃ slot' : Slot, (described s form included supertypes).slots[slot.index]? = some slot' ∧
      slot'.readOnly = slot.readOnly := by
  obtain ⟨k, hk⟩ := List.mem_iff_getElem?.mp hslot
  obtain ⟨rfl, -⟩ := getElem?_allSlots (fun k slot h => (hbase.included k slot h).1) hk
  have hlt : slot.index < (described s form included supertypes).slots.length := by
    simpa [described, setReaders] using (List.getElem?_eq_some_iff.mp hk).1
  have hset := List.getElem?_eq_getElem hlt
  obtain ⟨slot'', hslot'', -, -, -, hreadOnly, -⟩ := getElem?_setReaders hset
  obtain rfl : slot'' = slot := Option.some.inj (hslot''.symm.trans hk)
  exact ⟨_, hset, hreadOnly⟩

theorem forall₂_setReaders (form : Definition) (inherited : List (Symbol × ℕ))
    (slots : List Slot) : List.Forall₂ SameSlot slots (setReaders form inherited slots) := by
  rw [setReaders, List.forall₂_map_right_iff, List.forall₂_same]
  intro slot _
  split_ifs
  · exact ⟨rfl, rfl⟩
  · exact ⟨rfl, rfl⟩

theorem Tables.define (ht : Tables s) (hl : Layout s.definitions)
    (hbase : Base s form included supertypes) : Tables (define s form included supertypes) := by
  refine ⟨?_, ?_, ?_, ?_, ?_, ?_, ?_, ?_⟩
  · intro dd hdd slot hslot hname
    rcases List.mem_cons.mp hdd with rfl | hdd
    · obtain ⟨slot', hslot', hname', -⟩ := mem_setReaders hslot
      have heq : (described s form included supertypes).accessor slot =
          accessorName form.concName slot'.name := congrArg (accessorName form.concName) hname'
      obtain ⟨owner, howner, index, hmem⟩ :=
        ht.exists_accessor hl hbase hslot' (heq ▸ hname)
      exact ⟨owner, howner, index, heq ▸ hmem⟩
    · obtain ⟨owner, howner, index, hmem⟩ := ht.accessor dd hdd slot hslot hname
      exact ⟨owner, howner, index, mem_functions_define.mpr (Or.inr hmem)⟩
  · intro dd hdd slot hslot hreader
    rcases List.mem_cons.mp hdd with rfl | hdd
    · exact ht.exists_reader hl hbase hslot hreader
    · obtain ⟨owner, howner, index, hmem⟩ := ht.reader dd hdd slot hslot hreader
      exact ⟨owner, howner, index, mem_functions_define.mpr (Or.inr hmem)⟩
  · intro name owner index hmem
    rcases mem_functions_define.mp hmem with hnew | hold
    · rcases mem_defineFunctions.mp hnew with ⟨-, h⟩ | ⟨-, h⟩ | ⟨slot, hslot, hnot, rfl, h⟩ | ⟨-, h⟩
      · cases h
      · cases h
      · obtain ⟨rfl, rfl⟩ := Function.reader.inj h
        obtain ⟨slot', hslot', hreadOnly⟩ := hbase.exists_described hslot
        refine ⟨_, List.mem_cons_self, rfl, slot', hslot', fun hwritable => ?_⟩
        exact mem_setfFunctions_define.mpr (Or.inl (mem_defineWriters.mpr
          ⟨slot, hslot, hnot, hreadOnly ▸ hwritable, rfl, rfl, rfl⟩))
      · cases h
    · obtain ⟨dd, hdd, hname, slot, hslot, hwriter⟩ := ht.writer name owner index hold
      exact ⟨dd, List.mem_cons_of_mem _ hdd, hname, slot, hslot,
        fun h => mem_setfFunctions_define.mpr (Or.inr (hwriter h))⟩
  · intro name owner index hmem
    rcases mem_setfFunctions_define.mp hmem with hnew | hold
    · obtain ⟨slot, hslot, hnot, -, rfl, rfl, rfl⟩ := mem_defineWriters.mp hnew
      exact mem_functions_define.mpr (Or.inl (mem_defineFunctions.mpr
        (Or.inr (Or.inr (Or.inl ⟨slot, hslot, hnot, rfl, rfl⟩)))))
    · exact mem_functions_define.mpr (Or.inr (ht.setf name owner index hold))
  · intro dd hdd name hname
    rcases List.mem_cons.mp hdd with rfl | hdd
    · exact ⟨allSlots form included, mem_functions_define.mpr (Or.inl
        (mem_defineFunctions.mpr (Or.inl ⟨hname, rfl⟩)))⟩
    · obtain ⟨slots, hmem⟩ := ht.constructor dd hdd name hname
      exact ⟨slots, mem_functions_define.mpr (Or.inr hmem)⟩
  · intro name types slots hmem
    rcases mem_functions_define.mp hmem with hnew | hold
    · rcases mem_defineFunctions.mp hnew with ⟨-, h⟩ | ⟨-, h⟩ | ⟨_, -, -, -, h⟩ | ⟨-, h⟩
      · obtain ⟨rfl, rfl⟩ := Function.constructor.inj h
        exact ⟨_, List.mem_cons_self, rfl, forall₂_setReaders _ _ _⟩
      · cases h
      · cases h
      · cases h
    · obtain ⟨dd, hdd, htypes, hslots⟩ := ht.constructed name types slots hold
      exact ⟨dd, List.mem_cons_of_mem _ hdd, htypes, hslots⟩
  · intro dd hdd name hname
    rcases List.mem_cons.mp hdd with rfl | hdd
    · exact mem_functions_define.mpr (Or.inl (mem_defineFunctions.mpr
        (Or.inr (Or.inl ⟨hname, rfl⟩))))
    · exact mem_functions_define.mpr (Or.inr (ht.predicate dd hdd name hname))
  · intro dd hdd name hname
    rcases List.mem_cons.mp hdd with rfl | hdd
    · exact mem_functions_define.mpr (Or.inl (mem_defineFunctions.mpr
        (Or.inr (Or.inr (Or.inr ⟨hname, rfl⟩)))))
    · exact mem_functions_define.mpr (Or.inr (ht.copier dd hdd name hname))

end Define

/-! ## Runs -/

section Runs

variable {s : State A}

structure SameTables (s s' : State A) : Prop where
  definitions : s'.definitions = s.definitions
  functions : s'.functions = s.functions
  setfFunctions : s'.setfFunctions = s.setfFunctions

theorem SameTables.tables {s s' : State A} (h : SameTables s s') (ht : Tables s) : Tables s' := by
  obtain ⟨definitions, functions, setfFunctions, heap⟩ := s
  obtain ⟨definitions', functions', setfFunctions', heap'⟩ := s'
  obtain ⟨rfl, rfl, rfl⟩ := h
  exact ⟨ht.accessor, ht.reader, ht.writer, ht.setf, ht.constructor, ht.constructed, ht.predicate,
    ht.copier⟩

theorem Invariant.of_allocate (h : Invariant s) {dd : Description} (hdd : dd ∈ s.definitions)
    {slots : List (Value A)} (hlength : slots.length = dd.slots.length) :
    Invariant (allocate s dd.typeNames slots).2 := by
  refine ⟨h.layout, SameTables.tables (s := s) ⟨rfl, rfl, rfl⟩ h.tables, fun i hi => ?_⟩
  rcases List.mem_append.mp hi with hold | hnew
  · exact h.heap i hold
  · obtain rfl := List.mem_singleton.mp hnew
    exact ⟨dd, hdd, rfl, hlength⟩

theorem mem_of_instanceOf {v : Value A} {address : ℕ} {i : Instance A}
    (h : instanceOf s v = some (address, i)) :
    v = .structureObject address i.types ∧ s.heap[address]? = some i := by
  unfold instanceOf at h
  split at h
  next address' types =>
    split at h
    next i' hi' =>
      split_ifs at h with htypes
      obtain ⟨rfl, rfl⟩ := Prod.mk.inj (Option.some.inj h)
      exact ⟨by rw [htypes], hi'⟩
    next => cases h
  next => cases h

theorem Invariant.of_copyStructure (h : Invariant s) (v : Value A) :
    Invariant (copyStructure s v).2 := by
  unfold copyStructure
  split
  · exact h
  next address i hi =>
    obtain ⟨dd, hdd, htypes, hlength⟩ := h.heap i (List.mem_of_getElem? (mem_of_instanceOf hi).2)
    rw [htypes]
    exact h.of_allocate hdd hlength

theorem length_slotValues {eval : Form → Value A} {slots : List Slot} {args values : List (Value A)}
    (h : slotValues eval slots args = some values) : values.length = slots.length := by
  unfold slotValues at h
  split at h
  · cases h
  · split_ifs at h
    obtain rfl := Option.some.inj h
    exact List.length_map _

theorem mem_of_lookup {β : Type} {l : List (Symbol × β)} {name : Symbol} {b : β}
    (h : l.lookup name = some b) : (name, b) ∈ l := by
  obtain ⟨l₁, l₂, rfl, -⟩ := List.lookup_eq_some_iff.mp h
  simp

theorem exists_lookup {β : Type} {l : List (Symbol × β)} {name : Symbol} {b : β}
    (h : (name, b) ∈ l) : ∃ b', l.lookup name = some b' ∧ (name, b') ∈ l := by
  obtain ⟨b', hb'⟩ := Option.isSome_iff_exists.mp
    (List.lookup_isSome_iff.mpr ⟨(name, b), h, beq_self_eq_true name⟩)
  exact ⟨b', hb', mem_of_lookup hb'⟩

theorem Invariant.of_call (h : Invariant s) (eval : Form → Value A) (name : Symbol)
    (args : List (Value A)) : Invariant (call s eval name args).2 := by
  unfold call
  split
  next typeNames slots hlookup =>
    obtain ⟨dd, hdd, rfl, hslots⟩ := h.tables.constructed _ _ _ (mem_of_lookup hlookup)
    split
    · exact h
    next values hvalues =>
      exact h.of_allocate hdd ((length_slotValues hvalues).trans hslots.length_eq)
  · exact h
  · exact h
  next v _ => exact h.of_copyStructure v
  · exact h
  · exact h

theorem Invariant.of_callSetf (h : Invariant s) (name : Symbol) (value v : Value A) :
    Invariant (callSetf s name value v).2 := by
  unfold callSetf
  split
  · unfold structureSet
    split
    · exact h
    · split_ifs
      · refine ⟨h.layout, SameTables.tables (s := s) ⟨rfl, rfl, rfl⟩ h.tables, fun i hi => ?_⟩
        obtain ⟨k, hk⟩ := List.mem_iff_getElem?.mp hi
        rw [List.getElem?_modify] at hk
        obtain ⟨i', hi', rfl⟩ := Option.map_eq_some_iff.mp hk
        obtain ⟨dd, hdd, htypes, hlength⟩ := h.heap i' (List.mem_of_getElem? hi')
        refine ⟨dd, hdd, ?_, ?_⟩
        · split_ifs
          · exact htypes
          · exact htypes
        · split_ifs
          · rw [List.length_set, hlength]
          · exact hlength
      · exact h
  · exact h

theorem Reaches.invariant (h : Reaches s) : Invariant s := by
  induction h with
  | initial =>
    refine ⟨⟨List.nodup_nil, ?_, ?_⟩, ⟨?_, ?_, ?_, ?_, ?_, ?_, ?_, ?_⟩, ?_⟩
    all_goals simp [State.initial]
  | define form h hcontinues hdefine ih =>
    obtain ⟨included, supertypes, hbase, rfl⟩ := Invariant.base ih.layout hcontinues hdefine
    refine ⟨ih.layout.define hbase, ih.tables.define ih.layout hbase, fun i hi => ?_⟩
    obtain ⟨dd, hdd, htypes, hlength⟩ := ih.heap i hi
    exact ⟨dd, List.mem_cons_of_mem _ hdd, htypes, hlength⟩
  | call eval name args h ih => exact ih.of_call eval name args
  | setf name value v h ih => exact ih.of_callSetf name value v

end Runs

end Xcl.Defstruct.Access
