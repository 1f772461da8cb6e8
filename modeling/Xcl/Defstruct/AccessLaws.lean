import Xcl.Defstruct.Chain

/-!
# The laws of structures in a chain

* `slotOf`, `IsInstance`: the slots of an object, and the structure it belongs to;
* **`accessLaws`**: the laws hold in every state of a chain.
-/

namespace Xcl.Defstruct.Access

variable {A : Type}

def slotOf (s : State A) (v : Value A) (index : ℕ) : Option (Value A) :=
  (instanceOf s v).bind fun i => i.2.slots[index]?

/-- The object is an instance of the structure itself. -/
def IsInstance (s : State A) (v : Value A) (dd : Description) : Prop :=
  ∃ address i, instanceOf s v = some (address, i) ∧ i.types = dd.typeNames

/-- One structure is another one or includes it, directly or not. -/
def Includes (s : State A) (dd dd' : Description) : Prop :=
  Relation.ReflTransGen (IncludesDirectly s.definitions) dd.name dd'.name

def Unambiguous (s : State A) (name : Symbol) : Prop :=
  ∃ f, ∀ f', (name, f') ∈ s.functions → f' = f

/-- All functions of the chain with the name are one reader of the slot. -/
def AccessesOnly (s : State A) (name : Symbol) (index : ℕ) : Prop :=
  name ≠ "NIL" ∧ ∃ owner, ∀ f, (name, f) ∈ s.functions → f = .reader owner index

structure AccessLaws (s : State A) : Prop where
  construct : ∀ dd ∈ s.definitions, ∀ name ∈ dd.constructors, Unambiguous s name →
    ∀ eval args v s', call s eval name args = (.value v, s') →
      SameTables s s' ∧ IsInstance s' v dd ∧ ∃ keyArgs, keyArguments args = some keyArgs ∧
        ∀ slot ∈ dd.slots, slot.name ≠ "NIL" → AccessesOnly s (dd.accessor slot) slot.index →
          call s' eval (dd.accessor slot) [v] =
            (.value (keyValue eval keyArgs slot.name slot.initform), s')
  read : ∀ dd ∈ s.definitions, ∀ dd' ∈ s.definitions, Includes s dd' dd →
    ∀ slot ∈ dd.slots, AccessesOnly s (dd.accessor slot) slot.index →
      (∃ slot' ∈ dd'.slots, slot'.name = slot.name ∧ slot'.index = slot.index) ∧
      ∀ eval v, IsInstance s v dd' → ∃ w, slotOf s v slot.index = some w ∧
        call s eval (dd.accessor slot) [v] = (.value w, s)
  /-- `setf` of the accessor changes this slot of this object and nothing else. -/
  write : ∀ dd ∈ s.definitions, ∀ dd' ∈ s.definitions, Includes s dd' dd →
    ∀ slot ∈ dd.slots, slot.readOnly = false → AccessesOnly s (dd.accessor slot) slot.index →
      ∀ value v, IsInstance s v dd' → ∃ s',
        callSetf s (dd.accessor slot) value v = (.value value, s') ∧ SameTables s s' ∧
        (∀ u dd'', IsInstance s u dd'' → IsInstance s' u dd'') ∧
        slotOf s' v slot.index = some value ∧
        ∀ u index, u ≠ v ∨ index ≠ slot.index → slotOf s' u index = slotOf s u index
  copy : ∀ dd ∈ s.definitions, ∀ name ∈ dd.copier, Unambiguous s name →
    ∀ dd' ∈ s.definitions, ∀ eval v, IsInstance s v dd' → ∃ u s',
      call s eval name [v] = (.value u, s') ∧ SameTables s s' ∧ instanceOf s u = none ∧
      IsInstance s' u dd' ∧ (∀ index, slotOf s' u index = slotOf s v index) ∧
      ∀ w index, w ≠ u → slotOf s' w index = slotOf s w index
  predicate : ∀ dd ∈ s.definitions, ∀ name ∈ dd.predicate, Unambiguous s name →
    ∀ dd' ∈ s.definitions, ∀ eval v, IsInstance s v dd' → ∃ b,
      call s eval name [v] = (.boolean b, s) ∧ (b = true ↔ Includes s dd' dd)

section Laws

variable {s : State A}

theorem lookup_of_unambiguous {name : Symbol} {f : Function} (h : Unambiguous s name)
    (hmem : (name, f) ∈ s.functions) : s.functions.lookup name = some f := by
  obtain ⟨f₀, hf₀⟩ := h
  obtain ⟨f', hlookup, hmem'⟩ := exists_lookup hmem
  rw [hlookup, hf₀ f' hmem', hf₀ f hmem]

theorem Invariant.lookup_accessor (h : Invariant s) {dd : Description} (hdd : dd ∈ s.definitions)
    {slot : Slot} (hslot : slot ∈ dd.slots)
    (haccess : AccessesOnly s (dd.accessor slot) slot.index) :
    ∃ owner ∈ dd.typeNames, s.functions.lookup (dd.accessor slot) =
      some (.reader owner slot.index) ∧
      (slot.readOnly = false →
        s.setfFunctions.lookup (dd.accessor slot) = some (owner, slot.index)) := by
  obtain ⟨hnil, owner, honly⟩ := haccess
  obtain ⟨owner', howner', index, hmem⟩ := h.tables.accessor dd hdd slot hslot hnil
  obtain ⟨rfl, rfl⟩ := Function.reader.inj (honly _ hmem)
  refine ⟨owner', howner', lookup_of_unambiguous ⟨_, honly⟩ hmem, fun hwritable => ?_⟩
  obtain ⟨dd₀, hdd₀, rfl, slot₀, hslot₀, hwriter⟩ := h.tables.writer _ _ _ hmem
  -- The structure that defines the accessor has this slot at the same place.
  obtain ⟨k, hk⟩ := List.mem_iff_getElem?.mp hslot
  obtain rfl := h.layout.indexed dd hdd k slot hk
  obtain ⟨slot₁, hslot₁, -, hreadOnly⟩ :=
    (h.layout.extends_of_mem hdd hdd₀ howner').1 _ slot₀ hslot₀
  obtain rfl : slot₁ = slot := Option.some.inj (hslot₁.symm.trans hk)
  obtain ⟨⟨owner₁, index₁⟩, hlookup, hmem₁⟩ := exists_lookup (hwriter (hreadOnly ▸ hwritable))
  obtain ⟨rfl, rfl⟩ := Function.reader.inj (honly _ (h.tables.setf _ _ _ hmem₁))
  exact hlookup

theorem Invariant.exists_slotOf (h : Invariant s) {dd : Description} (hdd : dd ∈ s.definitions)
    {v : Value A} (hv : IsInstance s v dd) {index : ℕ} (hindex : index < dd.slots.length) :
    ∃ address i w, v = .structureObject address dd.typeNames ∧
      instanceOf s v = some (address, i) ∧ s.heap[address]? = some i ∧ i.types = dd.typeNames ∧
      i.slots[index]? = some w := by
  obtain ⟨address, i, hi, htypes⟩ := hv
  obtain ⟨hv, hheap⟩ := mem_of_instanceOf hi
  obtain ⟨dd', hdd', htypes', hlength⟩ := h.heap i (List.mem_of_getElem? hheap)
  obtain rfl := h.layout.eq_of_typeNames hdd hdd' (htypes.symm.trans htypes')
  exact ⟨address, i, _, htypes ▸ hv, hi, hheap, htypes,
    List.getElem?_eq_getElem (hlength ▸ hindex)⟩

theorem Invariant.included (h : Invariant s) {dd dd' : Description} (hdd : dd ∈ s.definitions)
    (hdd' : dd' ∈ s.definitions) (hincludes : Includes s dd' dd) {slot : Slot}
    (hslot : slot ∈ dd.slots) :
    dd.typeNames ⊆ dd'.typeNames ∧ slot.index < dd'.slots.length ∧
      ∃ slot' ∈ dd'.slots, slot'.name = slot.name ∧ slot'.index = slot.index := by
  obtain ⟨hextends, hsubset⟩ := h.layout.extends_of_mem hdd' hdd
    ((h.layout.mem_typeNames_iff hdd' dd.name).mpr hincludes)
  obtain ⟨k, hk⟩ := List.mem_iff_getElem?.mp hslot
  obtain rfl := h.layout.indexed dd hdd k slot hk
  obtain ⟨slot', hslot', hname, -⟩ := hextends _ slot hk
  exact ⟨hsubset, (List.getElem?_eq_some_iff.mp hslot').1, slot', List.mem_of_getElem? hslot',
    hname, h.layout.indexed dd' hdd' _ slot' hslot'⟩

theorem theInstance_of_mem {address : ℕ} {types : List Symbol} {owner : Symbol}
    (h : owner ∈ types) :
    theInstance s owner (.structureObject address types) =
      instanceOf s (.structureObject address types) := by
  rw [theInstance, if_pos]
  exact List.contains_iff_mem.mpr h

theorem Invariant.read (h : Invariant s) {dd dd' : Description} (hdd : dd ∈ s.definitions)
    (hdd' : dd' ∈ s.definitions) (hincludes : Includes s dd' dd) {slot : Slot}
    (hslot : slot ∈ dd.slots) (haccess : AccessesOnly s (dd.accessor slot) slot.index)
    (eval : Form → Value A) {v : Value A} (hv : IsInstance s v dd') :
    ∃ w, slotOf s v slot.index = some w ∧ call s eval (dd.accessor slot) [v] = (.value w, s) := by
  obtain ⟨hsubset, hindex, -⟩ := h.included hdd hdd' hincludes hslot
  obtain ⟨owner, howner, hlookup, -⟩ := h.lookup_accessor hdd hslot haccess
  obtain ⟨address, i, w, rfl, hi, -, -, hw⟩ := h.exists_slotOf hdd' hv hindex
  refine ⟨w, by rw [slotOf, hi, Option.bind_some, hw], ?_⟩
  simp only [call, hlookup, structureRef, theInstance_of_mem (hsubset howner), hi, hw]

/-! ## Constructors -/

theorem instanceOf_allocate (types : List Symbol) (slots : List (Value A)) :
    instanceOf (allocate s types slots).2 (.structureObject s.heap.length types) =
      some (s.heap.length, ⟨types, slots⟩) := by
  simp [instanceOf, allocate]

theorem slotOf_allocate (types : List Symbol) (slots : List (Value A)) (index : ℕ) :
    slotOf (allocate s types slots).2 (.structureObject s.heap.length types) index =
      slots[index]? := by
  rw [slotOf, instanceOf_allocate, Option.bind_some]

theorem instanceOf_allocate_of_ne {types : List Symbol} (slots : List (Value A)) {v : Value A}
    (h : v ≠ .structureObject s.heap.length types) :
    instanceOf (allocate s types slots).2 v = instanceOf s v := by
  cases v with
  | structureObject address types' =>
    simp only [instanceOf, allocate, List.getElem?_append]
    by_cases hlt : address < s.heap.length
    · rw [if_pos hlt]
    · rw [if_neg hlt, List.getElem?_eq_none (not_lt.mp hlt)]
      by_cases heq : address = s.heap.length
      · subst heq
        have htypes : types ≠ types' := fun htypes => h (by rw [htypes])
        simp [htypes]
      · rw [List.getElem?_eq_none (by simp; omega)]
  | _ => rfl

theorem sameSlot_of_getElem? {slots slots' : List Slot} (h : List.Forall₂ SameSlot slots slots')
    {k : ℕ} {slot slot' : Slot} (hslot : slots[k]? = some slot) (hslot' : slots'[k]? = some slot') :
    SameSlot slot slot' := by
  obtain ⟨hlt, rfl⟩ := List.getElem?_eq_some_iff.mp hslot
  obtain ⟨hlt', rfl⟩ := List.getElem?_eq_some_iff.mp hslot'
  exact h.get hlt hlt'

theorem getElem?_slotValues {eval : Form → Value A} {slots : List Slot}
    {args values : List (Value A)} (h : slotValues eval slots args = some values) :
    ∃ keyArgs, keyArguments args = some keyArgs ∧ values = slots.map (slotValue eval keyArgs) := by
  unfold slotValues at h
  split at h
  · cases h
  next keyArgs hkeyArgs =>
    split_ifs at h
    exact ⟨keyArgs, hkeyArgs, (Option.some.inj h).symm⟩

theorem Invariant.construct (h : Invariant s) {dd : Description} (hdd : dd ∈ s.definitions)
    {name : Symbol} (hname : name ∈ dd.constructors) (hunambiguous : Unambiguous s name)
    {eval : Form → Value A} {args : List (Value A)} {v : Value A} {s' : State A}
    (hcall : call s eval name args = (.value v, s')) :
    SameTables s s' ∧ IsInstance s' v dd ∧ ∃ keyArgs, keyArguments args = some keyArgs ∧
      ∀ slot ∈ dd.slots, slot.name ≠ "NIL" → AccessesOnly s (dd.accessor slot) slot.index →
        call s' eval (dd.accessor slot) [v] =
          (.value (keyValue eval keyArgs slot.name slot.initform), s') := by
  obtain ⟨slots, hmem⟩ := h.tables.constructor dd hdd name hname
  have hinvariant := h.of_call eval name args
  have hlookup := lookup_of_unambiguous hunambiguous hmem
  obtain ⟨dd', hdd', htypes, hsame⟩ := h.tables.constructed _ _ _ hmem
  obtain rfl := h.layout.eq_of_typeNames hdd' hdd htypes
  rw [hcall] at hinvariant
  simp only [call, hlookup] at hcall
  split at hcall
  · cases hcall
  next values hvalues =>
    obtain ⟨keyArgs, hkeyArgs, rfl⟩ := getElem?_slotValues hvalues
    obtain ⟨hv, rfl⟩ := Prod.mk.inj hcall
    obtain rfl := Outcome.value.inj hv
    have hinstance :=
      instanceOf_allocate (s := s) dd'.typeNames (slots.map (slotValue eval keyArgs))
    refine ⟨⟨rfl, rfl, rfl⟩, ⟨_, _, hinstance, rfl⟩, keyArgs, hkeyArgs, ?_⟩
    intro slot hslot hnil haccess
    obtain ⟨w, hw, hread⟩ := hinvariant.read hdd hdd .refl hslot haccess eval
      ⟨_, _, hinstance, rfl⟩
    rw [hread]
    have hvalue := (slotOf_allocate dd'.typeNames _ slot.index).symm.trans hw
    rw [List.getElem?_map] at hvalue
    obtain ⟨slot', hslot', rfl⟩ := Option.map_eq_some_iff.mp hvalue
    obtain ⟨k, hk⟩ := List.mem_iff_getElem?.mp hslot
    obtain rfl := h.layout.indexed dd' hdd k slot hk
    obtain ⟨hname, hinitform⟩ := sameSlot_of_getElem? hsame hslot' hk
    rw [slotValue, if_pos (by simp [Slot.isKey, hname, hnil]), hname, hinitform]

/-! ## Writers -/

/-- The state after a change of one slot. -/
def withSlot (s : State A) (address index : ℕ) (value : Value A) : State A :=
  { s with
    heap := s.heap.modify address fun i => { i with slots := i.slots.set index value } }

theorem instanceOf_withSlot_self {address : ℕ} {i : Instance A}
    (h : s.heap[address]? = some i) (index : ℕ) (value : Value A) :
    instanceOf (withSlot s address index value) (.structureObject address i.types) =
      some (address, { i with slots := i.slots.set index value }) := by
  simp [instanceOf, withSlot, h]

theorem instanceOf_withSlot_of_ne {address : ℕ} {i : Instance A} (h : s.heap[address]? = some i)
    (index : ℕ) (value : Value A) {u : Value A} (hu : u ≠ .structureObject address i.types) :
    instanceOf (withSlot s address index value) u = instanceOf s u := by
  cases u with
  | structureObject address' types =>
    simp only [instanceOf, withSlot, List.getElem?_modify]
    by_cases heq : address = address'
    · subst heq
      have htypes : i.types ≠ types := fun htypes => hu (by rw [htypes])
      simp [h, htypes]
    · simp [heq]
  | _ => rfl

theorem Invariant.write (h : Invariant s) {dd dd' : Description} (hdd : dd ∈ s.definitions)
    (hdd' : dd' ∈ s.definitions) (hincludes : Includes s dd' dd) {slot : Slot}
    (hslot : slot ∈ dd.slots) (hwritable : slot.readOnly = false)
    (haccess : AccessesOnly s (dd.accessor slot) slot.index) (value : Value A) {v : Value A}
    (hv : IsInstance s v dd') :
    ∃ s', callSetf s (dd.accessor slot) value v = (.value value, s') ∧ SameTables s s' ∧
      (∀ u dd'', IsInstance s u dd'' → IsInstance s' u dd'') ∧
      slotOf s' v slot.index = some value ∧
      ∀ u index, u ≠ v ∨ index ≠ slot.index → slotOf s' u index = slotOf s u index := by
  obtain ⟨hsubset, hindex, -⟩ := h.included hdd hdd' hincludes hslot
  obtain ⟨owner, howner, -, hsetf⟩ := h.lookup_accessor hdd hslot haccess
  obtain ⟨address, i, w, rfl, hi, hheap, htypes, hw⟩ := h.exists_slotOf hdd' hv hindex
  have hlt : slot.index < i.slots.length := (List.getElem?_eq_some_iff.mp hw).1
  have hself := instanceOf_withSlot_self hheap slot.index value
  have hothers := fun {u : Value A} => instanceOf_withSlot_of_ne hheap slot.index value (u := u)
  rw [htypes] at hself hothers
  refine ⟨withSlot s address slot.index value, ?_, ⟨rfl, rfl, rfl⟩, ?_, ?_, ?_⟩
  · simp only [callSetf, hsetf hwritable, structureSet, theInstance_of_mem (hsubset howner), hi,
      if_pos hlt]
    rfl
  · intro u dd'' hu
    by_cases heq : u = .structureObject address dd'.typeNames
    · subst heq
      obtain ⟨address', i', hi', htypes'⟩ := hu
      obtain ⟨rfl, rfl⟩ := Prod.mk.inj (Option.some.inj (hi'.symm.trans hi))
      exact ⟨_, _, hself, htypes.symm.trans htypes'⟩
    · obtain ⟨address', i', hi', htypes'⟩ := hu
      exact ⟨address', i', (hothers heq).trans hi', htypes'⟩
  · rw [slotOf, hself, Option.bind_some, List.getElem?_set_self hlt]
  · intro u index hne
    by_cases heq : u = .structureObject address dd'.typeNames
    · subst heq
      have hindex : index ≠ slot.index := hne.resolve_left fun h => h rfl
      rw [slotOf, slotOf, hself, hi, Option.bind_some, Option.bind_some,
        List.getElem?_set_ne hindex.symm]
    · rw [slotOf, slotOf, hothers heq]

/-! ## Copiers and predicates -/

theorem Invariant.copy (h : Invariant s) {dd dd' : Description} (hdd : dd ∈ s.definitions)
    {name : Symbol} (hname : name ∈ dd.copier) (hunambiguous : Unambiguous s name)
    (eval : Form → Value A) {v : Value A} (hv : IsInstance s v dd') :
    ∃ u s', call s eval name [v] = (.value u, s') ∧ SameTables s s' ∧ instanceOf s u = none ∧
      IsInstance s' u dd' ∧ (∀ index, slotOf s' u index = slotOf s v index) ∧
      ∀ w index, w ≠ u → slotOf s' w index = slotOf s w index := by
  obtain ⟨address, i, hi, htypes⟩ := hv
  have hlookup := lookup_of_unambiguous hunambiguous (h.tables.copier dd hdd name hname)
  refine ⟨.structureObject s.heap.length i.types, (allocate s i.types i.slots).2, ?_,
    ⟨rfl, rfl, rfl⟩, ?_, ⟨_, _, instanceOf_allocate i.types i.slots, htypes⟩, ?_, ?_⟩
  · simp only [call, hlookup, copyStructure, hi]
    rfl
  · simp [instanceOf]
  · intro index
    rw [slotOf_allocate, slotOf, hi, Option.bind_some]
  · intro w index hne
    rw [slotOf, slotOf, instanceOf_allocate_of_ne i.slots hne]

theorem Invariant.predicate (h : Invariant s) {dd dd' : Description} (hdd : dd ∈ s.definitions)
    {name : Symbol} (hname : name ∈ dd.predicate) (hunambiguous : Unambiguous s name)
    (hdd' : dd' ∈ s.definitions) (eval : Form → Value A) {v : Value A} (hv : IsInstance s v dd') :
    ∃ b, call s eval name [v] = (.boolean b, s) ∧ (b = true ↔ Includes s dd' dd) := by
  obtain ⟨address, i, hi, htypes⟩ := hv
  have hlookup := lookup_of_unambiguous hunambiguous (h.tables.predicate dd hdd name hname)
  refine ⟨structureTypep v dd.name, by simp only [call, hlookup], ?_⟩
  rw [(mem_of_instanceOf hi).1, htypes, structureTypep, List.contains_iff_mem]
  exact h.layout.mem_typeNames_iff hdd' dd.name

end Laws

/-- In every state of a chain of definitions with calls in between, the functions with a name of
their own follow the laws of structures. -/
theorem accessLaws {s : State A} (hreaches : Reaches s) : AccessLaws s := by
  have h := hreaches.invariant
  refine ⟨?_, ?_, ?_, ?_, ?_⟩
  · intro dd hdd name hname hunambiguous eval args v s' hcall
    exact h.construct hdd hname hunambiguous hcall
  · intro dd hdd dd' hdd' hincludes slot hslot haccess
    exact ⟨(h.included hdd hdd' hincludes hslot).2.2,
      fun eval v hv => h.read hdd hdd' hincludes hslot haccess eval hv⟩
  · intro dd hdd dd' hdd' hincludes slot hslot hwritable haccess value v hv
    exact h.write hdd hdd' hincludes hslot hwritable haccess value hv
  · intro dd hdd name hname hunambiguous dd' _ eval v hv
    exact h.copy hdd hname hunambiguous eval hv
  · intro dd hdd name hname hunambiguous dd' hdd' eval v hv
    exact h.predicate hdd hname hunambiguous hdd' eval hv

/-! ## Two structures -/

/-- A structure without options other than `:conc-name` and `:include`. -/
def simpleDefinition (name : Symbol) (concName : Symbol) (includeName : Option Symbol)
    (slots : List Symbol) : Definition :=
  { name := name, concName := some concName, constructors := [], copier := some ("COPY-" ++ name),
    predicate := some (name ++ "-P"), includeOption := includeName.map fun name => (name, []),
    initialOffset := 0, named := false, slots := slots.map fun slot => (slot, .nil, false) }

def defineAll (forms : List Definition) : State ℤ :=
  forms.foldl (fun s form => (defineStructure s form).getD s) .initial

/-- `(defstruct a x)` and `(defstruct (b (:include a)) y)` -/
def pair : List Definition :=
  [simpleDefinition "A" "A-" none ["X"], simpleDefinition "B" "B-" (some "A") ["Y"]]

theorem reaches_pair : Reaches (defineAll pair) :=
  .define (simpleDefinition "B" "B-" (some "A") ["Y"])
    (.define (simpleDefinition "A" "A-" none ["X"]) .initial ⟨rfl, by simp [State.initial]⟩ rfl)
    ⟨rfl, by decide⟩ rfl

/-- After `(make-b :y 5)`. -/
def pairInstance : State ℤ :=
  (call (defineAll pair) (fun _ => .nil) "MAKE-B" [.keyword "Y", .other 5]).2

/-- The predicate of `a` is defined on the instance of `b`. -/
theorem accessLaws_pair :
    ∃ b, call pairInstance (fun _ => .nil) "A-P" [.structureObject 0 ["B", "A"]] =
      (.boolean b, pairInstance) := by
  have hlaws := accessLaws (reaches_pair.call (fun _ => .nil) "MAKE-B" [.keyword "Y", .other 5])
  have honly : ∀ f ∈ pairInstance.functions, f.1 = "A-P" → f.2 = .predicate "A" := by decide
  obtain ⟨b, hb, -⟩ := hlaws.predicate _ (List.mem_cons_of_mem _ List.mem_cons_self) "A-P" rfl
    ⟨.predicate "A", fun f hf => honly _ hf rfl⟩ _ List.mem_cons_self (fun _ => .nil)
    (.structureObject 0 ["B", "A"]) ⟨0, _, rfl, rfl⟩
  exact ⟨b, hb⟩

/-- `(defstruct (a (:conc-name x-)) yz)` and `(defstruct (b (:include a) (:conc-name x-y)) z)` -/
def mismatch : List Definition :=
  [simpleDefinition "A" "X-" none ["YZ"], simpleDefinition "B" "X-Y" (some "A") ["Z"]]

theorem reaches_mismatch : Reaches (defineAll mismatch) :=
  .define (simpleDefinition "B" "X-Y" (some "A") ["Z"])
    (.define (simpleDefinition "A" "X-" none ["YZ"]) .initial ⟨rfl, by simp [State.initial]⟩ rfl)
    ⟨rfl, by decide⟩ rfl

/-- `(x-yz (make-b :yz 1 :z 2))`, with the accessor of the slot `z` of `b`, is 1. -/
theorem not_read_mismatch :
    Reaches (defineAll mismatch) ∧
      ∃ s' : State ℤ, call (defineAll mismatch) (fun _ => .nil) "MAKE-B"
          [.keyword "YZ", .other 1, .keyword "Z", .other 2] =
        (.value (.structureObject 0 ["B", "A"]), s') ∧
      call s' (fun _ => .nil) (accessorName (some "X-Y") "Z") [.structureObject 0 ["B", "A"]] =
        (.value (.other 1), s') :=
  ⟨reaches_mismatch, _, rfl, rfl⟩

end Xcl.Defstruct.Access
