import Xcl.Equality.Model

/-!
# `equal` and `hash` agree

* `Real.canon`, `Obj.canon`: what an object is for `equal`, without its addresses;
* `equal_iff_same`, `hash_canon`, **`equal_coherent_iff`**.
-/

namespace Xcl.Equality

-- The equations of these functions are made once, before the lemmas that use them.
section
attribute [local simp] computeHash equal
end

/-! ## Sequences -/

namespace Sequence

variable {α : Type} [Inhabited α] {s t : Sequence α}

@[simp] theorem length_active : s.active.length = s.length := by simp [active]

theorem active_getElem? (i : ℕ) : s.active[i]? = if i < s.length then some (s.get i) else none := by
  rw [active, List.getElem?_map]
  split_ifs with h
  · rw [List.getElem?_range h]
    rfl
  · rw [List.getElem?_eq_none (by rw [List.length_range]; omega)]
    rfl

theorem active_eq_iff :
    s.active = t.active ↔ s.length = t.length ∧ ∀ i < s.length, s.get i = t.get i := by
  constructor
  · intro h
    have hlength : s.length = t.length := by rw [← length_active, h, length_active]
    refine ⟨hlength, fun i hi => ?_⟩
    have hi' := congrArg (·[i]?) h
    simp only [active_getElem?, if_pos hi, if_pos (hlength ▸ hi)] at hi'
    exact Option.some.inj hi'
  · rintro ⟨hlength, hget⟩
    refine List.ext_getElem? fun i => ?_
    rw [active_getElem?, active_getElem?, ← hlength]
    split_ifs with hi
    · rw [hget i hi]
    · rfl

theorem active_simple (data : List α) : (simple data).active = data := by
  refine List.ext_getElem? fun i => ?_
  rw [active_getElem?]
  simp only [length, get, List.getD_eq_getElem?_getD]
  split_ifs with h
  · rw [List.getElem?_eq_getElem h]
    rfl
  · rw [List.getElem?_eq_none (by omega)]

end Sequence

theorem Text.equal_iff {s t : Text} : s.equal t = true ↔ s.active = t.active := by
  rw [Sequence.active_eq_iff]
  simp [Text.equal]

theorem Bits.equal_iff {v w : Bits} :
    v.equal w = true ↔ v.capacity = w.length ∧ ∀ i < v.capacity, v.get i = w.get i := by
  simp [Bits.equal]

theorem Bits.equal_iff_active {v w : Bits} (h : v.length = v.capacity) :
    v.equal w = true ↔ v.active = w.active := by
  rw [Bits.equal_iff, Sequence.active_eq_iff, h]

theorem Bits.hash_simple (v : Bits) : Bits.hash (.simple v.active) = v.hash := by
  have hlength : (Sequence.simple v.active).length = v.length := v.length_active
  unfold Bits.hash
  rw [hlength]
  refine congrArg (· &&& mostPositiveFixnum) (List.foldl_ext _ _ _ fun hashcode i hi => ?_)
  have hi : i < v.length := (Nat.lt_of_lt_of_le (List.mem_range.mp hi) (Nat.min_le_left _ _))
  have hget := (Sequence.active_eq_iff.mp (Sequence.active_simple v.active)).2 i (hlength ▸ hi)
  rw [hget]

/-! ## Numbers -/

section Floats

variable {w : ℕ} {infinity f g : BitVec w}

theorem getLsbD_magnitude (f : BitVec w) (i : ℕ) :
    (magnitude f).getLsbD i = (decide (i + 1 < w) && f.getLsbD i) := by
  simp [magnitude, BitVec.getLsbD_ushiftRight, BitVec.getLsbD_shiftLeft, Nat.add_comm]

theorem eq_of_magnitude (h : magnitude f = magnitude g) (hsign : f.msb = g.msb) : f = g := by
  refine BitVec.eq_of_getLsbD_eq fun i hi => ?_
  by_cases hlast : i + 1 < w
  · have hi' := congrArg (·.getLsbD i) h
    simpa [getLsbD_magnitude, hlast] using hi'
  · obtain rfl : i = w - 1 := by omega
    rwa [BitVec.msb_eq_getLsbD_last, BitVec.msb_eq_getLsbD_last] at hsign

theorem floatEql_iff : floatEql infinity f g = true ↔ isNaN infinity f = false ∧ f = g := by
  simp only [floatEql, floatEq, Bool.and_eq_true, Bool.or_eq_true, Bool.not_eq_true', beq_iff_eq,
    bne_iff_ne, ne_eq]
  constructor
  · rintro ⟨⟨⟨hg, hf⟩, heq⟩, hsign⟩
    refine ⟨hf, ?_⟩
    rcases heq with heq | ⟨hg0, hf0⟩
    · exact heq.symm
    · rcases hsign with hne | hsign
      · exact absurd hg0 hne
      · exact (eq_of_magnitude (hg0.trans hf0.symm) hsign).symm
  · rintro ⟨hf, rfl⟩
    exact ⟨⟨⟨hf, hf⟩, Or.inl rfl⟩, Or.inr rfl⟩

end Floats

/-- A number without its address. What is not a number is only equal to itself. -/
def Real.canon : Real → Real
  | .fixnum n => .fixnum n
  | .bignum _ z => .bignum 0 z
  | .ratio _ q => .ratio 0 q
  | .single address f => .single (if isNaN singleInfinity f then address else 0) f
  | .double address d => .double (if isNaN doubleInfinity d then address else 0) d

theorem same_or_floatEql_iff {w : ℕ} {infinity f g : BitVec w} {address address' : ℕ} :
    (address = address' ∧ f = g) ∨ floatEql infinity f g = true ↔
      (if isNaN infinity f then address else 0) = (if isNaN infinity g then address' else 0) ∧
        f = g := by
  rw [floatEql_iff, ← or_and_right]
  refine and_congr_left fun hfg => ?_
  subst hfg
  by_cases hf : isNaN infinity f = true
  · simp [hf]
  · simp [hf]

theorem Real.eql_iff (x y : Real) : x.eql y = true ↔ x.canon = y.canon := by
  unfold Real.eql
  rw [Bool.or_eq_true, beq_iff_eq]
  cases x <;> cases y <;> simp only [Real.canon, reduceCtorEq, Bool.false_eq_true, or_self]
  case fixnum.fixnum => simp
  case bignum.bignum => simp
  case ratio.ratio => simp
  case single.single address f address' g =>
    simp only [Real.single.injEq]
    exact same_or_floatEql_iff
  case double.double address f address' g =>
    simp only [Real.double.injEq]
    exact same_or_floatEql_iff

@[simp] theorem Real.hash_canon (x : Real) : x.canon.hash = x.hash := by
  cases x <;> rfl

@[simp] theorem Real.canon_canon (x : Real) : x.canon.canon = x.canon := by
  cases x with
  | single address f => by_cases hf : isNaN singleInfinity f = true <;> simp [Real.canon, hf]
  | double address d => by_cases hd : isNaN doubleInfinity d = true <;> simp [Real.canon, hd]
  | _ => rfl

/-! ## Objects -/

namespace Obj

/-- An object without its addresses. A symbol keeps its own. -/
def canon : Obj → Obj
  | .nil => .nil
  | .symbol address name => .symbol address name
  | .character c => .character c
  | .real x => .real x.canon
  | .complex _ re im => .complex 0 re.canon im.canon
  | .cons _ car cdr => .cons 0 car.canon cdr.canon
  | .string _ s => .string 0 (.simple s.active)
  | .bitVector _ v => .bitVector 0 (.simple v.active)
  | .pathname _ host device directory name type =>
    .pathname 0 host.canon device.canon directory.canon name.canon type.canon

section
attribute [local simp] Obj.canon Real.canon
end

/-- No bit vector has a fill pointer below its capacity. -/
def Sound : Obj → Prop
  | .cons _ car cdr => car.Sound ∧ cdr.Sound
  | .bitVector _ v => v.length = v.capacity
  | .pathname _ host device directory name type =>
    host.Sound ∧ device.Sound ∧ directory.Sound ∧ name.Sound ∧ type.Sound
  | _ => True

theorem canon_canon (x : Obj) : x.canon.canon = x.canon := by
  induction x with
  | cons _ _ _ ih ih' => simp [canon, ih, ih']
  | pathname _ _ _ _ _ _ h₁ h₂ h₃ h₄ h₅ => simp [canon, h₁, h₂, h₃, h₄, h₅]
  | _ => simp [canon, Sequence.active_simple]

end Obj

/-- What `equal` should tell. -/
def Same (x y : Obj) : Prop := x.canon = y.canon

theorem computeHash_canon (x : Obj) (depth : ℕ) :
    computeHash x.canon depth = computeHash x depth := by
  induction x generalizing depth with
  | cons _ _ _ ih ih' =>
    cases depth with
    | zero => rfl
    | succ depth => simp only [Obj.canon, computeHash, ih, ih']
  | pathname _ _ _ _ _ _ h₁ h₂ h₃ h₄ h₅ => simp only [Obj.canon, computeHash, h₁, h₂, h₃, h₄, h₅]
  | bitVector _ v => exact Bits.hash_simple v
  | string _ s =>
    simp only [Obj.canon, computeHash, Text.hash, Sequence.active_simple]
  | _ => simp [Obj.canon, computeHash]

/-- **Equal objects have the same hash code.** -/
theorem hash_eq_of_same {x y : Obj} (h : Same x y) : hash x = hash y := by
  rw [hash, hash, ← computeHash_canon x, ← computeHash_canon y, h]

/-- The test for identity saves the comparison of the parts. -/
theorem or_parts_iff {x y : Obj} {parts : Bool} (h : x = y → parts = true) :
    (x == y || parts) = true ↔ parts = true := by
  rw [Bool.or_eq_true, beq_iff_eq]
  exact ⟨fun hor => hor.elim h id, Or.inr⟩

theorem equal_cons {address address' : ℕ} {car cdr car' cdr' : Obj} :
    equal (.cons address car cdr) (.cons address' car' cdr') = true ↔
      equal car car' = true ∧ equal cdr cdr' = true := by
  rw [equal, or_parts_iff, Bool.and_eq_true]
  intro h
  cases h
  simp [equal_self]

theorem equal_pathname {address address' : ℕ}
    {host device directory name type host' device' directory' name' type' : Obj} :
    equal (.pathname address host device directory name type)
        (.pathname address' host' device' directory' name' type') = true ↔
      (((equal host host' = true ∧ equal device device' = true) ∧
        equal directory directory' = true) ∧ equal name name' = true) ∧
        equal type type' = true := by
  rw [equal, or_parts_iff]
  · simp only [Bool.and_eq_true]
  intro h
  cases h
  simp [equal_self]

theorem equal_real {x y : Real} : equal (.real x) (.real y) = true ↔ x.canon = y.canon := by
  rw [equal, or_parts_iff, Real.eql_iff]
  intro h
  cases h
  exact (Real.eql_iff x x).mpr rfl

theorem equal_complex {address address' : ℕ} {re im re' im' : Real} :
    equal (.complex address re im) (.complex address' re' im') = true ↔
      re.canon = re'.canon ∧ im.canon = im'.canon := by
  rw [equal, or_parts_iff, Bool.and_eq_true, Real.eql_iff, Real.eql_iff]
  intro h
  cases h
  rw [Bool.and_eq_true, Real.eql_iff, Real.eql_iff]
  exact ⟨rfl, rfl⟩

theorem equal_string {address address' : ℕ} {s t : Text} :
    equal (.string address s) (.string address' t) = true ↔ s.active = t.active := by
  rw [equal, or_parts_iff, Text.equal_iff]
  intro h
  cases h
  exact Text.equal_iff.mpr rfl

theorem equal_bitVector {address address' : ℕ} {v w : Bits} :
    equal (.bitVector address v) (.bitVector address' w) = true ↔
      Obj.bitVector address v = .bitVector address' w ∨ v.equal w = true := by
  rw [equal, Bool.or_eq_true, beq_iff_eq]

/-- **`equal` is right** about an object whose bit vectors are full. -/
theorem equal_iff_same {x : Obj} (hx : x.Sound) (y : Obj) : equal x y = true ↔ Same x y := by
  unfold Same
  induction x generalizing y with
  | cons address car cdr ih ih' =>
    cases y with
    | cons =>
      rw [equal_cons, ih hx.1, ih' hx.2]
      simp [Obj.canon]
    | _ => simp [equal, Obj.canon]
  | pathname address host device directory name type h₁ h₂ h₃ h₄ h₅ =>
    obtain ⟨s₁, s₂, s₃, s₄, s₅⟩ := hx
    cases y with
    | pathname =>
      rw [equal_pathname, h₁ s₁, h₂ s₂, h₃ s₃, h₄ s₄, h₅ s₅]
      simp [Obj.canon, and_assoc]
    | _ => simp [equal, Obj.canon]
  | real x =>
    cases y with
    | real y =>
      rw [equal_real]
      simp [Obj.canon]
    | _ => simp [equal, Obj.canon]
  | complex address re im =>
    cases y with
    | complex =>
      rw [equal_complex]
      simp [Obj.canon]
    | _ => simp [equal, Obj.canon]
  | string address s =>
    cases y with
    | string =>
      rw [equal_string]
      simp [Obj.canon]
    | _ => simp [equal, Obj.canon]
  | bitVector address v =>
    cases y with
    | bitVector address' w =>
      have hself : Obj.bitVector address v = .bitVector address' w → v.equal w = true := fun h => by
        cases h
        exact (Bits.equal_iff_active hx).mpr rfl
      rw [equal_bitVector, or_iff_right_of_imp hself, Bits.equal_iff_active hx]
      simp [Obj.canon]
    | _ => simp [equal, Obj.canon]
  | _ => cases y <;> simp [equal, Obj.canon]

theorem sound_of_equal_canon (x : Obj) (h : equal x x.canon = true) : x.Sound := by
  induction x with
  | cons address car cdr ih ih' =>
    obtain ⟨hcar, hcdr⟩ := equal_cons.mp h
    exact ⟨ih hcar, ih' hcdr⟩
  | pathname address host device directory name type h₁ h₂ h₃ h₄ h₅ =>
    obtain ⟨⟨⟨⟨e₁, e₂⟩, e₃⟩, e₄⟩, e₅⟩ := equal_pathname.mp h
    exact ⟨h₁ e₁, h₂ e₂, h₃ e₃, h₄ e₄, h₅ e₅⟩
  | bitVector address v =>
    rcases equal_bitVector.mp h with hidentical | hequal
    · rw [show v = .simple v.active from (Obj.bitVector.inj hidentical).2]
      rfl
    · exact ((Bits.equal_iff.mp hequal).1.trans v.length_active).symm
  | _ => trivial

/-- **`equal` and `hash` agree**: what `equal` should tell is an equivalence relation, for strings
and for bit vectors it is to have the same active length and the same elements below it, and `equal`
tells that of an object, and finds only objects of the same hash code, exactly when no bit vector in
the object has a fill pointer below its capacity. -/
theorem equal_coherent_iff (x : Obj) :
    Equivalence Same ∧
    (∀ a b (s t : Text), Same (.string a s) (.string b t) ↔
      s.length = t.length ∧ ∀ i < s.length, s.get i = t.get i) ∧
    (∀ a b (v w : Bits), Same (.bitVector a v) (.bitVector b w) ↔
      v.length = w.length ∧ ∀ i < v.length, v.get i = w.get i) ∧
    ((∀ y, (equal x y = true ↔ Same x y) ∧ (equal x y = true → hash x = hash y)) ↔
      x.Sound) := by
  refine ⟨⟨fun _ => rfl, Eq.symm, Eq.trans⟩, fun a b s t => ?_, fun a b v w => ?_,
    fun h => ?_, fun hx y => ?_⟩
  · rw [← Sequence.active_eq_iff]
    simp [Same, Obj.canon]
  · rw [← Sequence.active_eq_iff]
    simp [Same, Obj.canon]
  · exact sound_of_equal_canon x ((h x.canon).1.mpr x.canon_canon.symm)
  · exact ⟨equal_iff_same hx y, fun h => hash_eq_of_same ((equal_iff_same hx y).mp h)⟩

/-- A bit vector of two elements, of which one is active. -/
def halfBits : Bits :=
  .vector ⟨2, some 1, .owned [true, false], fun f hf => by cases hf; decide, Nat.le_refl 2⟩

/-- `#*1` equals it, but it does not equal `#*1`. -/
theorem not_equal_symm : ¬ ∀ x y : Obj, equal x y = true → equal y x = true := by
  intro h
  have hfirst : equal (.bitVector 1 (.simple [true])) (.bitVector 2 halfBits) = true := by decide
  exact absurd (h _ _ hfirst) (by decide)

end Xcl.Equality
