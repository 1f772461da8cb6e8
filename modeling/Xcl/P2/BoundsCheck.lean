import Xcl.X86.Machine

/-!
# Bounds checks of compiled code

The code that `p2-vector-ref` and `p2-check-fixnum-bounds` emit in front of an element access, up
to the access: it either runs to its end or branches to an error label.

* `fixnump`, `fixnumValue`, `fixnumize`: tagged words;
* **`boundsChecks_iff`**: which indices and lengths the checks are right for.
-/

namespace Xcl.P2

open X86

/-! ## Tagged words -/

/-- The two low bits of a fixnum are zero. -/
def fixnump (w : Word) : Bool := w &&& 3 == 0

def fixnumValue (w : Word) : ℤ := (w.sshiftRight 2).toInt

/-- `fixnumize`: the word of a fixnum. -/
def fixnumize (n : ℤ) : Word := BitVec.ofInt 64 (n * 4)

/-- The word is a fixnum `i` with `0 ≤ i < n`. -/
def InBounds (w : Word) (n : ℕ) : Prop :=
  fixnump w = true ∧ 0 ≤ fixnumValue w ∧ fixnumValue w < n

/-! ## The emitted code -/

/-- The answers about derived types that the code generator branches on: `fixnum-type-p` of the
type of the index, `subtypep` of it and `(INTEGER low high)`, and `derive-vector-size` of the type
of the vector. -/
structure IndexType where
  fixnumTypeP : Bool
  subtypep : ℤ → ℤ → Bool
  size : Option ℕ

def IndexType.knownInBounds (type : IndexType) : Bool :=
  match type.size with
  | some size => type.subtypep 0 ((size : ℤ) - 1)
  | none => false

inductive ErrorLabel
  | errorNotFixnum
  | errorBadIndex
  | error
  deriving DecidableEq, Repr

/-- The tag test, left out when the index is known to be a fixnum. -/
def tagTest (type : IndexType) (reg : Reg64) (label : ErrorLabel) : List (Instr ErrorLabel) :=
  if type.fixnumTypeP then [] else [.test 3 reg, .jmp .nz label]

/-- The check of `p2-vector-ref` for a `(simple-array * (*))`: the vector is in `rax` and the
index in `rdx`; `capacityOffset` is the displacement of the length of the vector. -/
def vectorRefCheck (capacityOffset : ℤ) (safety : ℕ) (type2 : IndexType) :
    List (Instr ErrorLabel) :=
  if safety = 0 then []
  else
    tagTest type2 .rdx .errorNotFixnum ++
      -- check index against length
      if type2.knownInBounds then []
      else [.sar 2 .rdx, .cmpMem .rdx capacityOffset .rax, .jmp .le .errorBadIndex]

/-- The last argument of `check-fixnum-bounds`: a fixnum, or a form whose derived type is
`fixnum-type-p` or not. -/
inductive UpperBound
  | constant (n : ℤ)
  | form (fixnumTypeP : Bool)

/-- `:cmp` of a fixnum and `rax`, through `rdx` when it has no 32-bit immediate. -/
def compareConstant (n : ℤ) : List (Instr ErrorLabel) :=
  if -2 ^ 31 ≤ n * 4 ∧ n * 4 < 2 ^ 31 then [.cmpImm (fixnumize n) .rax]
  else [.mov (fixnumize n) .rdx, .cmp .rdx .rax]

/-- `p2-check-fixnum-bounds`: the index is in `rax`, and the value of an upper bound that is a
form in `rdx`. A full call is `none`. -/
def checkFixnumBounds (safety : ℕ) (type1 : IndexType) (arg2 : ℤ) :
    UpperBound → Option (List (Instr ErrorLabel))
  | .constant arg3 =>
    if safety = 0 then some []
    else if type1.subtypep arg2 arg3 then some []
    else if arg2 = 0 ∧ arg3 = 1 then
      some (tagTest type1 .rax .error ++ [.cmpImm (fixnumize 1) .rax, .jmp .a .error])
    else if arg2 = 0 then
      some (tagTest type1 .rax .error ++ compareConstant arg3 ++ [.jmp .a .error])
    else
      some (tagTest type1 .rax .error ++ compareConstant arg2 ++ [.jmp .l .error] ++
        compareConstant arg3 ++ [.jmp .g .error])
  | .form fixnumTypeP =>
    if safety = 0 then some []
    else if arg2 = 0 ∧ fixnumTypeP then
      some (tagTest type1 .rax .error ++ [.cmp .rdx .rax, .jmp .a .error])
    else none

/-- The check that the transforms of `sbit` and `set-sbit1` ask for; the derived type of
`(1- (length v))` is a fixnum type. -/
def sbitCheck (safety : ℕ) (type1 : IndexType) : Option (List (Instr ErrorLabel)) :=
  checkFixnumBounds safety type1 0 (.form true)

/-- The derived types are right about the index and about the vector. -/
structure IndexType.Sound (type : IndexType) (w : Word) (n : ℕ) : Prop where
  fixnum : type.fixnumTypeP = true → fixnump w = true
  subtypep : ∀ low high, type.subtypep low high = true → -2 ^ 61 ≤ low → high < 2 ^ 61 →
    fixnump w = true ∧ low ≤ fixnumValue w ∧ fixnumValue w ≤ high
  size : ∀ k, type.size = some k → k = n

/-! ## Arithmetic of tagged words -/

theorem fixnump_iff (w : Word) : fixnump w = true ↔ w.toNat % 4 = 0 := by
  have h : (w &&& 3).toNat = w.toNat % 4 := by
    rw [BitVec.toNat_and]
    exact Nat.and_two_pow_sub_one_eq_mod w.toNat 2
  rw [fixnump, beq_iff_eq, ← BitVec.toNat_inj, h]
  rfl

theorem fixnumValue_eq (w : Word) : fixnumValue w = w.toInt / 4 := by
  rw [fixnumValue, BitVec.toInt_sshiftRight, Int.shiftRight_eq_div_pow]
  rfl

theorem and_three_eq (w : Word) : (w.truncate 8 &&& (3 : BitVec 8) != 0) = !fixnump w := by
  have h : (w.truncate 8 &&& (3 : BitVec 8)).toNat = w.toNat % 4 := by
    rw [BitVec.toNat_and, BitVec.truncate_eq_setWidth, BitVec.toNat_setWidth]
    have := Nat.and_two_pow_sub_one_eq_mod (w.toNat % 2 ^ 8) 2
    rw [show (3 : BitVec 8).toNat = 2 ^ 2 - 1 from rfl, this]
    omega
  rw [bne, Bool.not_inj_iff, Bool.eq_iff_iff, fixnump_iff, beq_iff_eq, ← BitVec.toNat_inj, h]
  rfl

theorem toInt_fixnumize {n : ℤ} (hlo : -2 ^ 61 ≤ n) (hhi : n < 2 ^ 61) :
    (fixnumize n).toInt = n * 4 := by
  rw [fixnumize, BitVec.toInt_ofInt]
  apply Int.bmod_eq_of_le <;> omega

theorem toNat_cases (w : Word) :
    (w.toNat : ℤ) = w.toInt ∧ 0 ≤ w.toInt ∨ (w.toNat : ℤ) = w.toInt + 2 ^ 64 ∧ w.toInt < 0 := by
  have := w.isLt
  rw [BitVec.toInt_eq_toNat_cond]
  split_ifs <;> omega

theorem toInt_emod_four (w : Word) : w.toInt % 4 = (w.toNat % 4 : ℕ) := by
  rcases toNat_cases w with h | h <;> omega

/-! ## What the checks let pass -/

variable {safety : ℕ} {type : IndexType} {w : Word} {n : ℕ} {s : State}

theorem reaches_tagTest_append {reg : Reg64} (label : ErrorLabel)
    (hfix : type.fixnumTypeP = true → fixnump (s.regs reg) = true)
    (code : List (Instr ErrorLabel)) :
    ∃ f, Reaches s (tagTest type reg label ++ code) ↔
      fixnump (s.regs reg) = true ∧ Reaches (s.setFlags f) code := by
  unfold tagTest
  by_cases h : type.fixnumTypeP = true
  · refine ⟨s.flags, ?_⟩
    rw [if_pos h, List.nil_append]
    exact ⟨fun hr => ⟨hfix h, hr⟩, fun hr => hr.2⟩
  · refine ⟨testFlags ((s.regs reg).truncate 8) 3, ?_⟩
    rw [if_neg h, List.cons_append, reaches_cons rfl, List.cons_append, reaches_jmp]
    show Cond.holds (testFlags _ _) .nz = false ∧ _ ↔ _
    rw [holds_nz_testFlags, and_three_eq, Bool.not_eq_false', List.nil_append]

/-- The check of `p2-vector-ref` lets a fixnum pass when it is below the length, also when it is
negative. -/
theorem reaches_vectorRefCheck (hsafety : 0 < safety) (hn : n < 2 ^ 61) (hw : s.regs .rdx = w)
    (htype : type.Sound w n) {offset : ℤ}
    (hlen : s.mem (s.regs .rax + BitVec.ofInt 64 offset) = BitVec.ofNat 64 n) :
    Reaches s (vectorRefCheck offset safety type) ↔ fixnump w = true ∧ fixnumValue w < n := by
  subst hw
  rw [vectorRefCheck, if_neg (by omega)]
  obtain ⟨f, hf⟩ := reaches_tagTest_append .errorNotFixnum htype.fixnum
    (if type.knownInBounds then []
      else [.sar 2 .rdx, .cmpMem .rdx offset .rax, .jmp .le .errorBadIndex])
  rw [hf]
  refine and_congr_right fun hfix => ?_
  by_cases hskip : type.knownInBounds = true
  · rw [if_pos hskip]
    unfold IndexType.knownInBounds at hskip
    cases hsize : type.size with
    | none => simp [hsize] at hskip
    | some size =>
      obtain rfl := htype.size size hsize
      rw [hsize] at hskip
      have := (htype.subtypep _ _ hskip (by norm_num) (by omega)).2.2
      simp only [reaches_nil, true_iff]
      omega
  · have hcap : (BitVec.ofNat 64 n).toInt = n := by
      rw [BitVec.toInt_ofNat']
      apply Int.bmod_eq_of_le <;> omega
    rw [if_neg hskip, reaches_cons rfl, reaches_cons rfl, reaches_jmp]
    simp only [State.setFlags, State.set, Function.update_self, ne_eq, reduceCtorEq,
      not_false_eq_true, Function.update_of_ne, hlen, holds_le_subFlags, hcap, reaches_nil,
      and_true, decide_eq_false_iff_not, not_le]
    rfl

theorem reaches_sbitCheck (hsafety : 0 < safety) (hw : s.regs .rax = w) (htype : type.Sound w n) :
    ∃ code, sbitCheck safety type = some code ∧
      (Reaches s code ↔ fixnump w = true ∧ w.toNat ≤ (s.regs .rdx).toNat) := by
  subst hw
  refine ⟨_, by rw [sbitCheck, checkFixnumBounds, if_neg (by omega), if_pos ⟨rfl, rfl⟩], ?_⟩
  obtain ⟨f, hf⟩ := reaches_tagTest_append .error htype.fixnum [.cmp .rdx .rax, .jmp .a .error]
  rw [hf]
  refine and_congr_right fun hfix => ?_
  rw [reaches_cons rfl, reaches_jmp]
  simp only [State.setFlags, holds_a_subFlags, decide_eq_false_iff_not, not_lt, reaches_nil,
    and_true]

/-- The word of the bound `n - 1`. For `n = 0` it is the largest fixnum word there is. -/
theorem toNat_fixnumize_pred (hn : n < 2 ^ 61) :
    (fixnumize ((n : ℤ) - 1)).toNat = if n = 0 then 2 ^ 64 - 4 else (n - 1) * 4 := by
  have hint := toInt_fixnumize (show -2 ^ 61 ≤ (n : ℤ) - 1 by omega) (by omega)
  have hcases := toNat_cases (fixnumize ((n : ℤ) - 1))
  split_ifs <;> omega

/-! ## When the checks are right -/

/-- **The bounds checks of compiled code.** The check of `p2-vector-ref` lets exactly the indices
in bounds pass unless the index is a negative fixnum, and the check of `sbit` and `set-sbit1`
unless the vector is empty and the index a fixnum. -/
theorem boundsChecks_iff (hsafety : 0 < safety) (hn : n < 2 ^ 61) (htype : type.Sound w n)
    {s₁ s₂ : State} {offset : ℤ} (hw₁ : s₁.regs .rdx = w)
    (hlen : s₁.mem (s₁.regs .rax + BitVec.ofInt 64 offset) = BitVec.ofNat 64 n)
    (hw₂ : s₂.regs .rax = w) (hbound : s₂.regs .rdx = fixnumize ((n : ℤ) - 1)) :
    ((Reaches s₁ (vectorRefCheck offset safety type) ↔ InBounds w n) ↔
      ¬ (fixnump w = true ∧ fixnumValue w < 0)) ∧
    ((∃ code, sbitCheck safety type = some code ∧ (Reaches s₂ code ↔ InBounds w n)) ↔
      ¬ (n = 0 ∧ fixnump w = true)) := by
  constructor
  · rw [reaches_vectorRefCheck hsafety hn hw₁ htype hlen, InBounds]
    by_cases hfix : fixnump w = true
    · simp only [hfix, true_and]
      omega
    · simp [hfix]
  · obtain ⟨code, hcode, hreach⟩ := reaches_sbitCheck hsafety hw₂ htype
    rw [hbound, toNat_fixnumize_pred hn] at hreach
    have hval := fixnumValue_eq w
    have hge := BitVec.le_toInt w
    have hcases := toNat_cases w
    simp only [hcode, Option.some.injEq, exists_eq_left', hreach, InBounds]
    by_cases hfix : fixnump w = true
    · have hmod := (fixnump_iff w).mp hfix
      simp only [hfix, true_and, and_true]
      by_cases hzero : n = 0
      · rw [if_pos hzero]
        omega
      · have hright : w.toNat ≤ (n - 1) * 4 ↔ 0 ≤ fixnumValue w ∧ fixnumValue w < n := by
          constructor
          · intro hle
            omega
          · intro hin
            omega
        simp [hzero, hright]
    · simp [hfix]

def unknownType : IndexType where
  fixnumTypeP := false
  subtypep _ _ := false
  size := none

theorem sound_unknownType (w : Word) (n : ℕ) : unknownType.Sound w n where
  fixnum := by simp [unknownType]
  subtypep := by simp [unknownType]
  size := by simp [unknownType]

/-- Registers and memory before a check of the word `w` against the word `bound`. -/
def checkState (w bound : Word) : State where
  regs r := if r = .rdx then w else bound
  flags := ⟨false, false, false, false⟩
  mem _ := bound

/-- The checks are right for index `3` and length `5`. -/
theorem boundsChecks_three_five :
    (Reaches (checkState 12 5) (vectorRefCheck 1 1 unknownType) ↔ InBounds 12 5) ∧
      ∃ code, sbitCheck 1 unknownType = some code ∧
        (Reaches (checkState 16 12) code ↔ InBounds 12 5) := by
  have h := boundsChecks_iff Nat.one_pos (by norm_num) (sound_unknownType 12 5)
    (show (checkState 12 5).regs .rdx = 12 from rfl)
    (show (checkState 12 5).mem (_ + BitVec.ofInt 64 1) = _ from rfl)
    (show (checkState 16 12).regs .rax = 12 from rfl) (show _ = fixnumize _ by decide)
  exact ⟨h.1.mpr (by decide), h.2.mpr (by decide)⟩

/-- The index `-1` passes the check of `p2-vector-ref` for a vector of length `5`, and the index
`0` passes the check of `sbit` for an empty vector. -/
theorem not_boundsChecks :
    ¬ (Reaches (checkState (fixnumize (-1)) 5) (vectorRefCheck 1 1 unknownType) ↔
        InBounds (fixnumize (-1)) 5) ∧
      ¬ ∃ code, sbitCheck 1 unknownType = some code ∧
        (Reaches (checkState (fixnumize (-1)) 0) code ↔ InBounds 0 0) := by
  constructor
  · have hreach : Reaches (checkState (fixnumize (-1)) 5) (vectorRefCheck 1 1 unknownType) :=
      ⟨_, rfl⟩
    intro h
    exact absurd (h.mp hreach).2.1 (by decide)
  · rintro ⟨code, hcode, h⟩
    obtain rfl := Option.some.inj hcode
    have hreach : Reaches (checkState (fixnumize (-1)) 0)
      (tagTest unknownType .rax .error ++ [.cmp .rdx .rax, .jmp .a .error]) := ⟨_, rfl⟩
    exact absurd (h.mp hreach).2.2 (by decide)

end Xcl.P2
