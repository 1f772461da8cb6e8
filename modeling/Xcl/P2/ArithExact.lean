import Xcl.Numbers.Exact
import Xcl.P2.Arith
import Xcl.P2.AshExact

/-!
# Inline addition and subtraction are exact

* **`p2TwoArg_exact`**: the code delivers the object of the sum or the difference.
-/

namespace Xcl.P2.Arith

open X86 FlatCode
open Ash (Contents object integerConstantValue Admits inFixnumRange_iff)
open Numbers (InFixnumRange Rational)

/-! ## Words -/

section Words

variable {op : Op} {x y n : ℤ}

theorem toInt_fixnumize_cases (n : ℤ) (hlo : -2 ^ 62 ≤ n) (hhi : n < 2 ^ 62) :
    (fixnumize n).toInt =
      if n < -2 ^ 61 then n * 4 + 2 ^ 64 else if 2 ^ 61 ≤ n then n * 4 - 2 ^ 64 else n * 4 := by
  rw [fixnumize, BitVec.toInt_ofInt, Int.bmod_def]
  split_ifs <;> omega

theorem word_fixnumize (op : Op) (x y : ℤ) :
    op.word (fixnumize x) (fixnumize y) = fixnumize (op.apply x y) := by
  cases op with
  | plus => rw [Op.word, Op.apply, fixnumize, fixnumize, fixnumize, add_mul, BitVec.ofInt_add]
  | minus =>
    rw [Op.word, Op.apply, fixnumize, fixnumize, fixnumize, sub_mul, sub_eq_add_neg (x * 4),
      BitVec.ofInt_add, BitVec.ofInt_neg, BitVec.sub_eq_add_neg]

theorem neg_fixnumize (n : ℤ) : -fixnumize n = fixnumize (-n) := by
  rw [fixnumize, fixnumize, neg_mul, BitVec.ofInt_neg]

theorem apply_bounds (op : Op) (hx : InFixnumRange x) (hy : InFixnumRange y) :
    -2 ^ 62 ≤ op.apply x y ∧ op.apply x y < 2 ^ 62 := by
  rw [inFixnumRange_iff] at hx hy
  cases op <;> simp only [Op.apply] <;> omega

theorem of_flags (op : Op) (hx : InFixnumRange x) (hy : InFixnumRange y) :
    (op.flags (fixnumize x) (fixnumize y)).of = decide (¬InFixnumRange (op.apply x y)) := by
  obtain ⟨hlo, hhi⟩ := apply_bounds op hx hy
  have hsplit : op.apply (x * 4) (y * 4) = op.apply x y * 4 := by
    cases op <;> simp only [Op.apply] <;> ring
  have hof : (op.word (fixnumize x) (fixnumize y)).toInt ≠
        op.apply (fixnumize x).toInt (fixnumize y).toInt ↔ ¬InFixnumRange (op.apply x y) := by
    rw [word_fixnumize, Ash.toInt_fixnumize_of_range hx, Ash.toInt_fixnumize_of_range hy, hsplit,
      toInt_fixnumize_cases _ hlo hhi, inFixnumRange_iff]
    split_ifs <;> omega
  exact decide_eq_decide.mpr hof

def topBits : Word := 0xc000000000000000

theorem toNat_topBits : topBits.toNat = 3 * 2 ^ 62 := rfl

theorem xor_topBits_of_lt {w : Word} (h : w.toNat < 2 ^ 62) : w ^^^ topBits = w + topBits := by
  have hbit : ∀ i, 62 ≤ i → w.getLsbD i = false := by
    intro i hi
    have hlt : w.toNat < 2 ^ i := lt_of_lt_of_le h (Nat.pow_le_pow_right (by norm_num) hi)
    exact Nat.testBit_lt_two_pow hlt
  have hmask : ∀ i < 64, topBits.getLsbD i = decide (62 ≤ i) := by decide
  have hand : w &&& topBits = 0#64 := by
    refine BitVec.eq_of_getLsbD_eq fun i hi => ?_
    rw [BitVec.getLsbD_and, hmask i hi, BitVec.getLsbD_zero]
    by_cases h62 : 62 ≤ i
    · rw [hbit i h62, Bool.false_and]
    · simp [h62]
  rw [BitVec.add_eq_or_of_and_eq_zero w topBits hand]
  refine BitVec.eq_of_getLsbD_eq fun i hi => ?_
  rw [BitVec.getLsbD_xor, BitVec.getLsbD_or, hmask i hi]
  by_cases h62 : 62 ≤ i
  · simp [hbit i h62]
  · simp [h62]

theorem xor_topBits_of_le {w : Word} (h : 3 * 2 ^ 62 ≤ w.toNat) : w ^^^ topBits = w - topBits := by
  have hlt : (w - topBits).toNat < 2 ^ 62 := by
    have := w.isLt
    rw [BitVec.toNat_sub, toNat_topBits]
    omega
  have hadd := xor_topBits_of_lt hlt
  rw [BitVec.sub_add_cancel] at hadd
  rw [← hadd, BitVec.xor_assoc, BitVec.xor_self, BitVec.xor_zero]
  rw [hadd]

/-- **The repair**: an untagged word that has overflowed is the exact result when its two top bits
are flipped. -/
theorem xor_sshiftRight_fixnumize (hlo : -2 ^ 62 ≤ n) (hhi : n < 2 ^ 62) (hn : ¬InFixnumRange n) :
    ((fixnumize n).sshiftRight 2 ^^^ topBits).toInt = n := by
  have hshift : ((fixnumize n).sshiftRight 2).toInt = (fixnumize n).toInt / 4 := by
    rw [BitVec.toInt_sshiftRight, Int.shiftRight_eq_div_pow]
    norm_num
  rw [toInt_fixnumize_cases n hlo hhi] at hshift
  rw [inFixnumRange_iff] at hn
  generalize (fixnumize n).sshiftRight 2 = w at *
  have hw := toNat_cases w
  have htop := toNat_topBits
  by_cases hneg : n < -2 ^ 61
  · rw [if_pos hneg] at hshift
    have hsum : (w + topBits).toNat = w.toNat + 3 * 2 ^ 62 := by
      rw [BitVec.toNat_add, htop]
      exact Nat.mod_eq_of_lt (by omega)
    have hres := toNat_cases (w + topBits)
    have hlt : (w + topBits).toInt < 2 ^ 63 := BitVec.toInt_lt
    rw [xor_topBits_of_lt (by omega)]
    omega
  · rw [if_neg hneg, if_pos (by omega)] at hshift
    have hdiff : (w - topBits).toNat = w.toNat - 3 * 2 ^ 62 := by
      rw [BitVec.toNat_sub_of_le (BitVec.le_def.mpr (by omega)), htop]
    have hres := toNat_cases (w - topBits)
    have hle : -2 ^ 63 ≤ (w - topBits).toInt := BitVec.le_toInt _
    rw [xor_topBits_of_le (by omega)]
    omega

end Words

/-! ## The kernel -/

section Kernel

variable {x y : ℤ}

theorem rational_object (n : ℤ) : Contents.rational (object n) = some (Numbers.makeInteger n) := by
  unfold object Numbers.makeInteger
  split_ifs with h
  · rw [Contents.rational, if_pos (Ash.fixnump_fixnumize h), Ash.fixnumValue_fixnumize h]
  · rfl

theorem ofRational_makeInteger (n : ℤ) : ofRational (Numbers.makeInteger n) = some (object n) := by
  unfold object Numbers.makeInteger
  split_ifs <;> rfl

theorem kernel_makeInteger (op : Op) (x y : ℤ) :
    op.kernel (Numbers.makeInteger x) (Numbers.makeInteger y) =
      Numbers.makeInteger (op.apply x y) := by
  have hx := Numbers.represents_makeInteger x
  have hy := Numbers.represents_makeInteger y
  have hr := Numbers.represents_makeInteger (op.apply x y)
  cases op with
  | plus =>
    rw [Op.apply, Int.cast_add] at hr
    exact (Numbers.twoArgPlus_represents hx hy).unique hr
  | minus =>
    rw [Op.apply, Int.cast_sub] at hr
    exact (Numbers.twoArgMinus_represents hx hy).unique hr

theorem apply_twoArg {s : State} (op : Op) (hrdi : s.regs .rdi = object x)
    (hrsi : s.regs .rsi = object y) :
    Function.apply s (.twoArg op) = some (object (op.apply x y)) := by
  simp only [Function.apply, hrdi, hrsi, rational_object, Option.bind_eq_bind, Option.bind_some,
    kernel_makeInteger, ofRational_makeInteger]

end Kernel

/-! ## Execution -/

/-- The target has got the contents, and the stack is otherwise as it was. -/
def Delivered (target : Target) (c : Contents) (stack : List Contents) (s : State) : Prop :=
  match target with
  | .register reg => s.regs reg = c ∧ s.stack = stack
  | .ret => s.regs .rax = c ∧ s.stack = stack
  | .stack => s.stack = c :: stack
  | .ignored => s.stack = stack

def Computes (env : Env) (program : Code) (target : Target) (c : Contents)
    (stack : List Contents) (code : Code) (s : State) : Prop :=
  ∃ s', Runs (exec env) program code s (.stopped s') ∧ Delivered target c stack s'

@[simp] theorem State.set_self (s : State) (r : Reg64) (c : Contents) : (s.set r c).regs r = c :=
  Function.update_self ..

theorem State.set_of_ne (s : State) {r r' : Reg64} (h : r' ≠ r) (c : Contents) :
    (s.set r c).regs r' = s.regs r' := Function.update_of_ne h ..

@[simp] theorem State.set_stack (s : State) (r : Reg64) (c : Contents) :
    (s.set r c).stack = s.stack := rfl

theorem State.word_eq {s : State} {r : Reg64} {w : Word} (h : s.regs r = .word w) :
    s.word r = some w := by
  rw [State.word, h]

section Rules

variable {env : Env} {program code : Code} {target : Target} {c : Contents}
  {stack : List Contents} {s s' : State} {i : Instr} {x y : ℤ}

theorem Computes.next (hi : exec env i s = some (.next s'))
    (h : Computes env program target c stack code s') :
    Computes env program target c stack (.instr i :: code) s := by
  obtain ⟨t, hruns, ht⟩ := h
  exact ⟨t, runs_next hi hruns, ht⟩

theorem Computes.label {l : Label} (h : Computes env program target c stack code s) :
    Computes env program target c stack (.label l :: code) s := by
  obtain ⟨t, hruns, ht⟩ := h
  exact ⟨t, runs_label hruns, ht⟩

theorem Computes.jump {test : Test} {l : Label} {code' : Code} (htest : test.holds s.flags = true)
    (hl : after l program = some code') (h : Computes env program target c stack code' s) :
    Computes env program target c stack (Arith.jump test l :: code) s := by
  obtain ⟨t, hruns, ht⟩ := h
  refine ⟨t, runs_jump ?_ hl hruns, ht⟩
  rw [exec, if_pos htest]

theorem Computes.noJump {test : Test} {l : Label} (htest : test.holds s.flags = false)
    (h : Computes env program target c stack code s) :
    Computes env program target c stack (Arith.jump test l :: code) s :=
  h.next (by rw [exec, htest, if_neg Bool.false_ne_true])

theorem Computes.move {reg1 reg2 : Reg64}
    (h : ∀ s', s'.regs reg2 = s.regs reg1 → (∀ r ≠ reg2, s'.regs r = s.regs r) →
      s'.stack = s.stack → Computes env program target c stack code s') :
    Computes env program target c stack (Arith.move reg1 reg2 ++ code) s := by
  unfold Arith.move
  split_ifs with heq
  · exact h s (by rw [heq]) (fun _ _ => rfl) rfl
  · refine Computes.next rfl (h (s.set reg2 (s.regs reg1)) (s.set_self _ _) ?_ rfl)
    exact fun r hr => s.set_of_ne hr _

theorem computes_moveResultToTarget (h : s.regs .rax = c) (hs : s.stack = stack) (code : Code) :
    Computes env program target c stack (moveResultToTarget target ++ .instr .exit :: code) s := by
  cases target with
  | ret => exact ⟨s, runs_stop rfl, h, hs⟩
  | stack => exact ⟨s.push c, runs_next (by rw [exec, h]) (runs_stop rfl), by rw [← hs]; rfl⟩
  | ignored => exact ⟨s, runs_stop rfl, hs⟩
  | register reg =>
    by_cases hreg : reg = .rax
    · subst hreg
      exact ⟨s, runs_stop rfl, h, hs⟩
    · have hcode : moveResultToTarget (.register reg) = [.instr (.mov .rax reg)] := by
        cases reg <;> first | rfl | exact absurd rfl hreg
      rw [hcode]
      refine ⟨s.set reg (s.regs .rax), runs_next rfl (runs_stop rfl), ?_, hs⟩
      rw [State.set_self, h]

theorem computes_moveUnlessTarget (h : s.regs target.reg = c) (hs : s.stack = stack)
    (code : Code) :
    Computes env program target c stack (moveUnlessTarget target ++ .instr .exit :: code) s := by
  cases target with
  | register reg =>
    have hcode : moveUnlessTarget (.register reg) = [] := if_pos rfl
    rw [hcode]
    exact ⟨s, runs_stop rfl, h, hs⟩
  | ret => exact computes_moveResultToTarget h hs code
  | stack => exact computes_moveResultToTarget h hs code
  | ignored => exact computes_moveResultToTarget h hs code

theorem computes_deliver (hi : exec env i s = some (s'.deliver c target))
    (hs : s'.stack = stack) (code : Code) :
    Computes env program target c stack (.instr i :: .instr .exit :: code) s := by
  cases target with
  | register reg => exact ⟨s'.set reg c, runs_next hi (runs_stop rfl), State.set_self _ _ _, hs⟩
  | ret => exact ⟨s'.set .rax c, runs_stop hi, State.set_self _ _ _, hs⟩
  | stack => exact ⟨s'.push c, runs_next hi (runs_stop rfl), by rw [← hs]; rfl⟩
  | ignored => exact ⟨s', runs_next hi (runs_stop rfl), hs⟩

theorem Computes.process1 {arg : Arg} {reg : Reg64}
    (h : ∀ s', s'.regs reg = object (env.arg arg) → s'.stack = s.stack →
      Computes env program target c stack code s') :
    Computes env program target c stack (.instr (.process1 arg (.register reg)) :: code) s :=
  Computes.next rfl (h _ (State.set_self _ _ _) rfl)

theorem Computes.process2 {arg1 arg2 : Arg} {reg1 reg2 : Reg64} (hne : reg1 ≠ reg2)
    (h : ∀ s', s'.regs reg1 = object (env.arg arg1) → s'.regs reg2 = object (env.arg arg2) →
      s'.stack = s.stack → Computes env program target c stack code s') :
    Computes env program target c stack (.instr (.process2 arg1 arg2 reg1 reg2) :: code) s := by
  refine Computes.next rfl (h _ ?_ ?_ rfl)
  · show Function.update (Function.update env.trash reg1 _) reg2 _ reg1 = _
    rw [Function.update_of_ne hne, Function.update_self]
  · show Function.update (Function.update env.trash reg1 _) reg2 _ reg2 = _
    rw [Function.update_self]

theorem Computes.call {f : Function} {r : Contents} (hf : f.apply s = some r)
    (h : ∀ s', s'.regs .rax = r → s'.stack = s.stack →
      Computes env program target c stack code s') :
    Computes env program target c stack (.instr (.call f) :: code) s := by
  have hrax : Function.update env.trash .rax r .rax = r := by rw [Function.update_self]
  refine Computes.next ?_ (h { s with regs := Function.update env.trash .rax r } hrax rfl)
  rw [exec, hf]
  rfl

theorem Computes.arith {op : Op} {reg1 reg2 : Reg64} {w1 w2 : Word} (h1 : s.regs reg1 = .word w1)
    (h2 : s.regs reg2 = .word w2)
    (h : Computes env program target c stack code (s.arith op reg2 w2 w1)) :
    Computes env program target c stack (.instr (.arith op reg1 reg2) :: code) s :=
  h.next (by simp only [exec, State.word_eq h1, State.word_eq h2, Option.bind_eq_bind,
    Option.bind_some])

end Rules

/-! ## Derived types -/

/-- The derived types are sound for the operands, and a literal is its own value. -/
structure Call.Sound (c : Call) (op : Op) (env : Env) (x y : ℤ) : Prop where
  arg1 : env.arg c.arg1 = x
  arg2 : env.arg c.arg2 = y
  type1 : Admits c.type1 x
  type2 : Admits c.type2 y
  resultType : Admits c.resultType (op.apply x y)

section Types

variable {env : Env} {type : DeriveType.DerivedType} {n : ℤ}

theorem inFixnumRange_of_fixnumTyped (hn : Admits type n) (h : fixnumTyped type = true) :
    InFixnumRange n := Ash.inFixnumRange_of_fixnumTypeP hn h

theorem arg_replace (hn : Admits type n) {arg : Arg} (harg : env.arg arg = n) :
    env.arg (arg.replace type) = n := by
  unfold Arg.replace
  cases hv : integerConstantValue type with
  | none => exact harg
  | some v =>
    obtain rfl := Ash.eq_of_integerConstantValue hn hv
    cases arg with
    | literal m =>
      dsimp only
      split_ifs
      · exact harg
      · rfl
    | form operand flushable =>
      cases flushable with
      | true => rfl
      | false => exact harg

theorem exists_literal_of_immediate {arg : Arg} {m : ℤ} (h : arg.immediate = some m) :
    arg = .literal m ∧ InFixnumRange m := by
  cases arg with
  | literal k =>
    rw [Arg.immediate] at h
    split_ifs at h with hk
    obtain rfl := Option.some.inj h
    exact ⟨rfl, hk.1⟩
  | form operand flushable => cases h

end Types

/-! ## Labels -/

section Labels

variable (l : Label) (code : Code)

@[simp] theorem after_instr (i : Instr) : after l (.instr i :: code) = after l code := rfl

@[simp] theorem after_self : after l (.label l :: code) = some code := if_pos rfl

@[simp] theorem after_of_ne {l' : Label} (h : l' ≠ l) :
    after l (.label l' :: code) = after l code := if_neg h

@[simp] theorem after_moveResultToTarget (target : Target) :
    after l (moveResultToTarget target ++ code) = after l code := by
  cases target with
  | register reg => cases reg <;> rfl
  | ret => rfl
  | stack => rfl
  | ignored => rfl

@[simp] theorem after_moveUnlessTarget (target : Target) :
    after l (moveUnlessTarget target ++ code) = after l code := by
  unfold moveUnlessTarget
  split_ifs
  · rfl
  · exact after_moveResultToTarget l code target

@[simp] theorem after_move (reg1 reg2 : Reg64) :
    after l (move reg1 reg2 ++ code) = after l code := by
  unfold move
  split_ifs <;> rfl

@[simp] theorem after_tagTest (type : DeriveType.DerivedType) (reg : Reg64) :
    after l (tagTest type reg ++ code) = after l code := by
  unfold tagTest
  split_ifs <;> rfl

@[simp] theorem after_overflowTest (type : DeriveType.DerivedType) :
    after l (overflowTest type ++ code) = after l code := by
  unfold overflowTest
  split_ifs <;> rfl

end Labels

/-! ## The clauses -/

section Clauses

variable {env : Env} {program : Code} {target : Target} {stack : List Contents} {s : State}
  {op : Op} {x y : ℤ}

theorem computes_p2Constant (n m : ℤ) (code : Code) :
    Computes env program target (object (op.apply n m)) s.stack
      (p2Constant op target n m ++ .instr .exit :: code) s := by
  refine computes_deliver ?_ rfl code
  rw [exec, kernel_makeInteger, ofRational_makeInteger]
  rfl

/-- The call of the kernel function, with the arguments in their registers. -/
theorem computes_twoArg {code : Code} (hrdi : s.regs .rdi = object x)
    (hrsi : s.regs .rsi = object y)
    (h : ∀ s', s'.regs .rax = object (op.apply x y) → s'.stack = s.stack →
      Computes env program target (object (op.apply x y)) stack code s') :
    Computes env program target (object (op.apply x y)) stack
      (.instr (.call (.twoArg op)) :: code) s :=
  Computes.call (apply_twoArg op hrdi hrsi) h

theorem computes_fullCall {arg1 arg2 : Arg} (hx : env.arg arg1 = x) (hy : env.arg arg2 = y)
    (code : Code) :
    Computes env program target (object (op.apply x y)) s.stack
      (fullCall op arg1 arg2 target ++ .instr .exit :: code) s := by
  refine Computes.process2 (by decide) fun s₁ hrdi hrsi hs₁ => ?_
  rw [hx] at hrdi
  rw [hy] at hrsi
  refine computes_twoArg hrdi hrsi fun s₂ hrax hs₂ => ?_
  exact computes_moveResultToTarget hrax (hs₂.trans hs₁) code

theorem computes_tagTest {c : Contents} {reg : Reg64} {type : DeriveType.DerivedType}
    {code full : Code} (hreg : s.regs reg = object x) (htype : Admits type x)
    (hfull : fixnumTyped type = false → after .fullCall program = some full)
    (hfixnum : InFixnumRange x → ∀ s', s'.regs = s.regs → s'.stack = s.stack →
      Computes env program target c stack code s')
    (hcall : ∀ s', s'.regs = s.regs → s'.stack = s.stack →
      Computes env program target c stack full s') :
    Computes env program target c stack (tagTest type reg ++ code) s := by
  unfold tagTest
  split_ifs with htyped
  · exact hfixnum (inFixnumRange_of_fixnumTyped htype htyped) s rfl rfl
  · refine Computes.next rfl ?_
    have hflags : Cond.holds (testFlags (s.regs reg).lowByte 3) .nz =
        decide (¬InFixnumRange x) := by
      rw [hreg]
      exact Ash.nz_testFlags_object x
    by_cases hx : InFixnumRange x
    · exact Computes.noJump (hflags.trans (by simp [hx])) (hfixnum hx _ rfl rfl)
    · exact Computes.jump (hflags.trans (by simp [hx])) (hfull (by simpa using htyped))
        (hcall _ rfl rfl)

/-- The code after the label `FIX-OVERFLOW`. -/
def fixOverflowCode (reg : Reg64) : Code :=
  .instr (.sar 2 reg) ::
    (move reg .rdi ++ .instr (.call .rtFixOverflow) :: move .rax reg ++ [jump .t .exit])

theorem computes_fixOverflowCode {reg : Reg64} {n : ℤ} {exitCode : Code} {c : Contents}
    (hreg : s.regs reg = .word (fixnumize n)) (hlo : -2 ^ 62 ≤ n) (hhi : n < 2 ^ 62)
    (hn : ¬InFixnumRange n) (hexit : after .exit program = some exitCode)
    (h : ∀ s', s'.regs reg = object n → s'.stack = s.stack →
      Computes env program target c stack exitCode s') :
    Computes env program target c stack (fixOverflowCode reg) s := by
  refine Computes.next (by rw [exec, State.word_eq hreg]; rfl) ?_
  rw [List.append_assoc]
  refine Computes.move fun s₁ hrdi _ hs₁ => ?_
  rw [State.set_self] at hrdi
  have hfix : Function.apply s₁ .rtFixOverflow = some (object n) := by
    rw [Function.apply, State.word_eq hrdi, Option.map_some]
    show some (Contents.bignum ((fixnumize n).sshiftRight 2 ^^^ topBits).toInt) = _
    rw [xor_sshiftRight_fixnumize hlo hhi hn, object, if_neg hn]
  refine Computes.call hfix fun s₂ hrax hs₂ => ?_
  refine Computes.move fun s₃ hreg₃ _ hs₃ => ?_
  exact Computes.jump rfl hexit (h s₃ (hreg₃.trans hrax) (hs₃.trans (hs₂.trans hs₁)))

theorem computes_overflowTest {reg : Reg64} {resultType : DeriveType.DerivedType} {exitCode : Code}
    {c : Contents} (hx : InFixnumRange x) (hy : InFixnumRange y)
    (hresult : Admits resultType (op.apply x y)) (hexit : after .exit program = some exitCode)
    (hoverflow : fixnumTyped resultType = false →
      after .fixOverflow program = some (fixOverflowCode reg))
    (h : ∀ s', s'.regs reg = object (op.apply x y) → s'.stack = s.stack →
      Computes env program target c stack exitCode s') :
    Computes env program target c stack (overflowTest resultType ++ .label .exit :: exitCode)
      (s.arith op reg (fixnumize x) (fixnumize y)) := by
  have hreg : (s.arith op reg (fixnumize x) (fixnumize y)).regs reg =
      .word (fixnumize (op.apply x y)) := by
    rw [← word_fixnumize]
    exact State.set_self _ _ _
  have hfits : InFixnumRange (op.apply x y) →
      (s.arith op reg (fixnumize x) (fixnumize y)).regs reg = object (op.apply x y) := by
    intro hr
    rw [hreg, Ash.object_of_range hr]
  unfold overflowTest
  split_ifs with htyped
  · exact Computes.label (h _ (hfits (inFixnumRange_of_fixnumTyped hresult htyped)) rfl)
  · have hflags : Cond.holds (s.arith op reg (fixnumize x) (fixnumize y)).flags .o =
        decide (¬InFixnumRange (op.apply x y)) := of_flags op hx hy
    by_cases hr : InFixnumRange (op.apply x y)
    · exact Computes.noJump (hflags.trans (by simp [hr])) (Computes.label (h _ (hfits hr) rfl))
    · obtain ⟨hlo, hhi⟩ := apply_bounds op hx hy
      refine Computes.jump (hflags.trans (by simp [hr])) (hoverflow (by simpa using htyped)) ?_
      exact computes_fixOverflowCode hreg hlo hhi hr hexit h

/-- The code of a function delivers the object of `n`, whatever the registers held before. -/
def Segments.Exact (segments : Segments) (env : Env) (target : Target) (n : ℤ) : Prop :=
  ∀ s, Computes env segments.code target (object n) s.stack segments.code s

theorem exact_smallConstant {arg1 : Arg} {type1 resultType : DeriveType.DerivedType} {n : ℤ}
    (hx : env.arg arg1 = x) (htype : Admits type1 x) (hn : InFixnumRange n)
    (hresult : Admits resultType (op.apply x n)) :
    (smallConstant op arg1 type1 resultType target n).Exact env target (op.apply x n) := by
  intro s
  generalize hprogram : (smallConstant op arg1 type1 resultType target n).code = program
  generalize helse : (smallConstant op arg1 type1 resultType target n).elsewhere = elsewhere
  have hmain : .instr (.process1 arg1 (.register target.reg)) :: (tagTest type1 target.reg ++
      .instr (.arithImm op (fixnumize n) target.reg) :: (overflowTest resultType ++
        .label .exit :: (moveUnlessTarget target ++ .instr .exit :: elsewhere))) = program := by
    simp [← hprogram, ← helse, Segments.code, smallConstant]
  have hexit : after .exit program =
      some (moveUnlessTarget target ++ .instr .exit :: elsewhere) := by
    simp [← hmain]
  have hfull : fixnumTyped type1 = false → after .fullCall program =
      some (move target.reg .rdi ++ .instr (.movImm (fixnumize n) .rsi) ::
        .instr (.call (.twoArg op)) :: (move .rax target.reg ++ jump .t .exit ::
          fixOverflow resultType target.reg)) := by
    intro htyped
    simp [← hmain, ← helse, smallConstant, htyped]
  have hoverflow : fixnumTyped resultType = false →
      after .fixOverflow program = some (fixOverflowCode target.reg) := by
    intro htyped
    by_cases htype1 : fixnumTyped type1 = true <;>
      simp [← hmain, ← helse, smallConstant, htyped, htype1, fixOverflow, fixOverflowCode, jump]
  have hdone : ∀ s', s'.regs target.reg = object (op.apply x n) → s'.stack = s.stack →
      Computes env program target (object (op.apply x n)) s.stack
        (moveUnlessTarget target ++ .instr .exit :: elsewhere) s' :=
    fun s' hreg hs => computes_moveUnlessTarget hreg hs _
  rw [← hmain]
  nth_rewrite 1 [hmain]
  refine Computes.process1 fun s₁ hreg hs₁ => ?_
  rw [hx] at hreg
  refine computes_tagTest hreg htype hfull (fun hfix s₂ hregs hs₂ => ?_) fun s₂ hregs hs₂ => ?_
  · rw [Ash.object_of_range hfix] at hreg
    have hword : s₂.regs target.reg = .word (fixnumize x) := by rw [hregs, hreg]
    refine Computes.next (by rw [exec, State.word_eq hword]; rfl) ?_
    refine computes_overflowTest hfix hn hresult hexit hoverflow fun s₃ hreg₃ hs₃ => ?_
    exact hdone s₃ hreg₃ (hs₃.trans (hs₂.trans hs₁))
  · refine Computes.move fun s₃ hrdi _ hs₃ => ?_
    refine Computes.next rfl (computes_twoArg (y := n) ?_ ?_ fun s₄ hrax hs₄ => ?_)
    · rw [State.set_of_ne _ (by decide), hrdi, hregs, hreg]
    · rw [State.set_self, Ash.object_of_range hn]
    · refine Computes.move fun s₅ hreg₅ _ hs₅ => ?_
      refine Computes.jump rfl hexit (hdone s₅ (hreg₅.trans hrax) ?_)
      rw [hs₅, hs₄, State.set_stack, hs₃, hs₂, hs₁]

theorem exact_general {arg1 arg2 : Arg} {type1 type2 resultType : DeriveType.DerivedType}
    (hx : env.arg arg1 = x) (hy : env.arg arg2 = y) (htype1 : Admits type1 x)
    (htype2 : Admits type2 y) (hresult : Admits resultType (op.apply x y)) :
    (general op arg1 arg2 type1 type2 resultType target).Exact env target (op.apply x y) := by
  intro s
  generalize hprogram : (general op arg1 arg2 type1 type2 resultType target).code = program
  generalize helse : (general op arg1 arg2 type1 type2 resultType target).elsewhere = elsewhere
  have hmain : .instr (.process2 arg1 arg2 .rax .rdx) :: (tagTest type1 .rax ++
      (tagTest type2 .rdx ++ .instr (.arith op .rdx .rax) :: (overflowTest resultType ++
        .label .exit :: (moveResultToTarget target ++ .instr .exit :: elsewhere)))) = program := by
    simp [← hprogram, ← helse, Segments.code, general]
  have hexit : after .exit program =
      some (moveResultToTarget target ++ .instr .exit :: elsewhere) := by
    simp [← hmain]
  have hfull : (fixnumTyped type1 && fixnumTyped type2) = false → after .fullCall program =
      some (.instr (.mov .rdx .rsi) :: .instr (.mov .rax .rdi) ::
        .instr (.call (.twoArg op)) :: jump .t .exit :: fixOverflow resultType .rax) := by
    intro htyped
    simp [← hmain, ← helse, general, htyped]
  have hoverflow : fixnumTyped resultType = false →
      after .fixOverflow program = some (fixOverflowCode .rax) := by
    intro htyped
    by_cases htypes : (fixnumTyped type1 && fixnumTyped type2) = true <;>
      simp [← hmain, ← helse, general, htyped, htypes, fixOverflow, fixOverflowCode, jump]
  have hdone : ∀ s', s'.regs .rax = object (op.apply x y) → s'.stack = s.stack →
      Computes env program target (object (op.apply x y)) s.stack
        (moveResultToTarget target ++ .instr .exit :: elsewhere) s' :=
    fun s' hreg hs => computes_moveResultToTarget hreg hs _
  rw [← hmain]
  nth_rewrite 1 [hmain]
  refine Computes.process2 (by decide) fun s₁ hrax hrdx hs₁ => ?_
  rw [hx] at hrax
  rw [hy] at hrdx
  have hcall : ∀ s', s'.regs = s₁.regs → s'.stack = s₁.stack →
      Computes env program target (object (op.apply x y)) s.stack
        (.instr (.mov .rdx .rsi) :: .instr (.mov .rax .rdi) ::
          .instr (.call (.twoArg op)) :: jump .t .exit :: fixOverflow resultType .rax) s' := by
    intro s₂ hregs hs₂
    refine Computes.next rfl (Computes.next rfl (computes_twoArg ?_ ?_ fun s₃ hrax₃ hs₃ => ?_))
    · rw [State.set_self, State.set_of_ne _ (by decide), hregs, hrax]
    · rw [State.set_of_ne _ (by decide), State.set_self, hregs, hrdx]
    · exact Computes.jump rfl hexit (hdone s₃ hrax₃ (hs₃.trans (hs₂.trans hs₁)))
  refine computes_tagTest hrax htype1 (fun h => hfull (by simp [h])) (fun hfix1 s₂ hregs hs₂ => ?_)
    hcall
  rw [← hregs] at hrdx
  refine computes_tagTest hrdx htype2 (fun h => hfull (by simp [h])) (fun hfix2 s₃ hregs₃ hs₃ => ?_)
    fun s₃ hregs₃ hs₃ => hcall s₃ (hregs₃.trans hregs) (hs₃.trans hs₂)
  rw [Ash.object_of_range hfix1] at hrax
  rw [Ash.object_of_range hfix2] at hrdx
  have hword1 : s₃.regs .rax = .word (fixnumize x) := by rw [hregs₃, hregs, hrax]
  have hword2 : s₃.regs .rdx = .word (fixnumize y) := by rw [hregs₃, hrdx]
  refine Computes.arith hword2 hword1 ?_
  refine computes_overflowTest hfix1 hfix2 hresult hexit hoverflow fun s₄ hrax₄ hs₄ => ?_
  exact hdone s₄ hrax₄ (hs₄.trans (hs₃.trans (hs₂.trans hs₁)))

theorem otherRegister_ne (reg : Reg64) : otherRegister reg ≠ reg := by
  unfold otherRegister
  split_ifs with h
  · rw [h]
    decide
  · exact fun heq => h heq.symm

theorem computes_fixnums {reg : Reg64} (hreg : s.regs reg = object y)
    (htarget : s.regs target.reg = object x) (hx : InFixnumRange x) (hy : InFixnumRange y)
    (hresult : InFixnumRange (op.apply x y)) (code : Code) :
    Computes env program target (object (op.apply x y)) s.stack
      (.instr (.arith op reg target.reg) ::
        (moveUnlessTarget target ++ .instr .exit :: code)) s := by
  rw [Ash.object_of_range hx] at htarget
  rw [Ash.object_of_range hy] at hreg
  refine Computes.arith hreg htarget (computes_moveUnlessTarget ?_ rfl code)
  rw [Ash.object_of_range hresult, ← word_fixnumize]
  exact State.set_self _ _ _

theorem computes_neg {arg2 : Arg} (hy : env.arg arg2 = y) (hfix : InFixnumRange y)
    (hresult : InFixnumRange (-y)) (code : Code) :
    Computes env program target (object (-y)) s.stack
      (.instr (.process1 arg2 (.register target.reg)) :: .instr (.neg target.reg) ::
        (moveUnlessTarget target ++ .instr .exit :: code)) s := by
  refine Computes.process1 fun s₁ hreg hs₁ => ?_
  rw [hy, Ash.object_of_range hfix] at hreg
  have hneg : exec env (.neg target.reg) s₁ =
      some (.next (s₁.set target.reg (.word (-fixnumize y)))) := by
    rw [exec, State.word_eq hreg]
    rfl
  refine Computes.next hneg (computes_moveUnlessTarget ?_ ((State.set_stack ..).trans hs₁) code)
  rw [State.set_self, neg_fixnumize, Ash.object_of_range hresult]

theorem exact_process1 {arg1 : Arg} (hx : env.arg arg1 = x) :
    Segments.Exact { main := [.instr (.process1 arg1 target)] } env target x := by
  intro s
  have hdeliver : exec env (.process1 arg1 target) s =
      some (State.deliver { s with regs := env.trash } (object x) target) := by
    rw [exec, hx]
  exact computes_deliver hdeliver rfl []

theorem exact_fullCall {arg1 arg2 : Arg} (hx : env.arg arg1 = x) (hy : env.arg arg2 = y) :
    Segments.Exact { main := fullCall op arg1 arg2 target } env target (op.apply x y) :=
  fun _ => computes_fullCall hx hy []

end Clauses

/-! ## The functions -/

section Functions

variable {env : Env} {x y : ℤ} (subtypep : DeriveType.DerivedType → TypeName → Bool)
  (target : Target)

theorem fixnums_of_and {a b c : Bool} (h : (a && b && c) = true) :
    a = true ∧ b = true ∧ c = true := by simpa [and_assoc] using h

theorem exact_plusClauses {args : Arg × Arg} {arg1 arg2 : Arg}
    {type1 type2 resultType : DeriveType.DerivedType} (hargs1 : env.arg args.1 = x)
    (hargs2 : env.arg args.2 = y) (harg1 : env.arg arg1 = x) (harg2 : env.arg arg2 = y)
    (htype1 : Admits type1 x) (htype2 : Admits type2 y) (hresult : Admits resultType (x + y)) :
    (plusClauses subtypep args arg1 arg2 type1 type2 resultType target).Exact env target
      (x + y) := by
  unfold plusClauses
  split
  next hzero =>
    rw [hzero] at harg2
    obtain rfl : 0 = y := harg2
    rw [add_zero]
    exact exact_process1 harg1
  next =>
  split
  next => exact exact_fullCall hargs1 hargs2
  next =>
  split
  next n himmediate =>
    obtain ⟨rfl, hn⟩ := exists_literal_of_immediate himmediate
    obtain rfl : n = y := harg2
    exact exact_smallConstant harg1 htype1 hn hresult
  next =>
  split
  next hfixnums =>
    obtain ⟨h1, h2, h3⟩ := fixnums_of_and hfixnums
    have hx := inFixnumRange_of_fixnumTyped htype1 h1
    have hy := inFixnumRange_of_fixnumTyped htype2 h2
    have hr := inFixnumRange_of_fixnumTyped hresult h3
    intro s
    refine Computes.process2 (otherRegister_ne _) fun s₁ hreg1 hreg2 hs₁ => ?_
    rw [hargs1] at hreg1
    rw [hargs2] at hreg2
    have hsum : x + y = Op.plus.apply y x := add_comm x y
    rw [hsum] at hr ⊢
    rw [← hs₁]
    exact computes_fixnums hreg1 hreg2 hy hx hr []
  next => exact exact_general hargs1 hargs2 htype1 htype2 hresult

theorem exact_p2TwoArgPlus {c : Call} (hc : c.Sound .plus env x y) :
    (p2TwoArgPlus subtypep c target).Exact env target (x + y) := by
  have harg1 := arg_replace hc.type1 hc.arg1
  have harg2 := arg_replace hc.type2 hc.arg2
  have hresult : Admits c.resultType (y + x) := by
    rw [add_comm]
    exact hc.resultType
  unfold p2TwoArgPlus
  dsimp only
  generalize c.arg1.replace c.type1 = arg1 at *
  generalize c.arg2.replace c.type2 = arg2 at *
  split
  next n m =>
    obtain rfl : n = x := harg1
    obtain rfl : m = y := harg2
    exact fun s => computes_p2Constant n m []
  next =>
  split_ifs
  · rw [add_comm]
    exact exact_plusClauses subtypep target harg2 harg1 harg2 harg1 hc.type2 hc.type1 hresult
  · exact exact_plusClauses subtypep target hc.arg1 hc.arg2 harg1 harg2 hc.type1 hc.type2
      hc.resultType

theorem exact_p2TwoArgMinus {c : Call} (hc : c.Sound .minus env x y) :
    (p2TwoArgMinus subtypep c target).Exact env target (x - y) := by
  have harg1 := arg_replace hc.type1 hc.arg1
  have harg2 := arg_replace hc.type2 hc.arg2
  unfold p2TwoArgMinus
  dsimp only
  generalize c.arg1.replace c.type1 = arg1 at *
  generalize c.arg2.replace c.type2 = arg2 at *
  split
  next n m =>
    obtain rfl : n = x := harg1
    obtain rfl : m = y := harg2
    exact fun s => computes_p2Constant n m []
  next =>
  split
  next hzero =>
    rw [hzero] at harg2
    obtain rfl : 0 = y := harg2
    rw [sub_zero]
    exact exact_process1 harg1
  next =>
  split
  next hneg =>
    obtain ⟨hzero1, htyped, hresult⟩ := hneg
    rw [hzero1] at harg1
    obtain rfl : 0 = x := harg1
    have hr := inFixnumRange_of_fixnumTyped hc.resultType hresult
    rw [Op.apply, zero_sub] at hr
    rw [zero_sub]
    exact fun s => computes_neg harg2 (inFixnumRange_of_fixnumTyped hc.type2 htyped) hr []
  next =>
  split
  next => exact exact_fullCall hc.arg1 hc.arg2
  next =>
  split
  next n himmediate =>
    obtain ⟨rfl, hn⟩ := exists_literal_of_immediate himmediate
    obtain rfl : n = y := harg2
    exact exact_smallConstant harg1 hc.type1 hn hc.resultType
  next =>
  split
  next hfixnums =>
    obtain ⟨h1, h2, h3⟩ := fixnums_of_and hfixnums
    intro s
    refine Computes.process2 (otherRegister_ne _).symm fun s₁ hreg1 hreg2 hs₁ => ?_
    rw [hc.arg1] at hreg1
    rw [hc.arg2] at hreg2
    have hr := inFixnumRange_of_fixnumTyped hc.resultType h3
    rw [← hs₁]
    exact computes_fixnums hreg2 hreg1 (inFixnumRange_of_fixnumTyped hc.type1 h1)
      (inFixnumRange_of_fixnumTyped hc.type2 h2) hr []
  next => exact exact_general hc.arg1 hc.arg2 hc.type1 hc.type2 hc.resultType

end Functions

/-- **The code for a sum or a difference delivers it to the target**, as a fixnum where it lies in
the fixnum range and as a bignum otherwise, whatever the registers held before; and so the kernel
function does. -/
theorem p2TwoArg_exact (op : Op) (subtypep : DeriveType.DerivedType → TypeName → Bool) (c : Call)
    (target : Target) {env : Env} {x y : ℤ} (hc : c.Sound op env x y) (s : State) :
    (∃ s', Runs (exec env) (p2TwoArg subtypep op c target).code
        (p2TwoArg subtypep op c target).code s (.stopped s') ∧
      Delivered target (object (op.apply x y)) s.stack s') ∧
      ofRational (op.kernel (Numbers.makeInteger x) (Numbers.makeInteger y)) =
        some (object (op.apply x y)) := by
  constructor
  · cases op with
    | plus => exact exact_p2TwoArgPlus subtypep target hc s
    | minus => exact exact_p2TwoArgMinus subtypep target hc s
  · rw [kernel_makeInteger, ofRational_makeInteger]

/-- A form `(two-arg-+ (f) 1)`. -/
def incrementCall : Call where
  arg1 := .form .first false
  arg2 := .literal 1
  type1 := .unknown
  type2 := .integer (some 1) (some 1)
  resultType := .unknown

/-- The form returns the most positive fixnum. -/
def incrementEnv : Env := ⟨fun _ => 2305843009213693951, fun _ => .word 0⟩

theorem sound_incrementCall :
    incrementCall.Sound .plus incrementEnv 2305843009213693951 1 := by
  refine ⟨rfl, rfl, trivial, ?_, trivial⟩
  constructor <;> simp

/-- A sum that overflows. -/
theorem p2TwoArg_exact_increment :
    incrementCall.Sound .plus incrementEnv 2305843009213693951 1 ∧
    (∃ s', Runs (exec incrementEnv) (p2TwoArg (fun _ _ => false) .plus incrementCall
          (.register .rbx)).code (p2TwoArg (fun _ _ => false) .plus incrementCall
          (.register .rbx)).code ⟨fun _ => .word 0, ⟨false, false, false, false⟩, []⟩
          (.stopped s') ∧
      Delivered (.register .rbx) (.bignum (2 ^ 61)) [] s') ∧
      ofRational (Rational.twoArgPlus (Numbers.makeInteger 2305843009213693951)
        (Numbers.makeInteger 1)) = some (.bignum (2 ^ 61)) :=
  ⟨sound_incrementCall, p2TwoArg_exact .plus (fun _ _ => false) incrementCall (.register .rbx)
    sound_incrementCall _⟩

end Xcl.P2.Arith
