import Xcl.P2.AshWords

/-!
# Inline `ASH` is exact

* **`p2Ash_exact`**: the code for `(ash x s)` leaves the object of `x * 2 ^ s`, rounded down.
-/

namespace Xcl.P2.Ash

open X86 FlatCode
open DeriveType (subtypepInteger)
open Numbers (InFixnumRange)
open Shift (ash ash_of_nonneg ash_of_nonpos ash_eq_floor)

variable {x shift n : ℤ}

/-! ## Execution -/

/-- The code leaves the object of `n` in the register of the target. -/
def Computes (env : Env) (program : Code) (target : Target) (n : ℤ) (code : Code) (s : State) :
    Prop :=
  ∃ s', Runs (exec env) program code s (.stopped s') ∧ s'.regs target.reg = object n

@[simp] theorem State.set_self (s : State) (r : Reg64) (c : Contents) : (s.set r c).regs r = c := by
  simp only [State.set, Function.update_self]

theorem State.set_of_ne (s : State) {r r' : Reg64} (h : r' ≠ r) (c : Contents) :
    (s.set r c).regs r' = s.regs r' := by
  simp only [State.set, Function.update_of_ne h]

theorem State.word_eq {s : State} {r : Reg64} {w : Word} (h : s.regs r = .word w) :
    s.word r = some w := by
  rw [State.word, h]

section Rules

variable {env : Env} {program code : Code} {target : Target} {s s' : State} {i : Instr}
  {reg : Reg64} {w : Word} {k : ℕ}

theorem Computes.next (hi : exec env i s = some (.next s'))
    (h : Computes env program target n code s') :
    Computes env program target n (.instr i :: code) s := by
  obtain ⟨t, hruns, ht⟩ := h
  exact ⟨t, runs_next hi hruns, ht⟩

theorem Computes.label {l : Label} (h : Computes env program target n code s) :
    Computes env program target n (.label l :: code) s := by
  obtain ⟨t, hruns, ht⟩ := h
  exact ⟨t, runs_label hruns, ht⟩

theorem Computes.jump {test : Test} {l : Label} {code' : Code} (htest : test.holds s.flags = true)
    (hl : after l program = some code') (h : Computes env program target n code' s) :
    Computes env program target n (Ash.jump test l :: code) s := by
  obtain ⟨t, hruns, ht⟩ := h
  refine ⟨t, runs_jump ?_ hl hruns, ht⟩
  rw [exec, if_pos htest]

theorem Computes.noJump {test : Test} {l : Label} (htest : test.holds s.flags = false)
    (h : Computes env program target n code s) :
    Computes env program target n (Ash.jump test l :: code) s :=
  h.next (by rw [exec, htest, if_neg Bool.false_ne_true])

theorem computes_exit (h : s.regs target.reg = object n) (code : Code) :
    Computes env program target n (target.exit ++ .instr .exit :: code) s := by
  refine ⟨s, ?_, h⟩
  cases target with
  | register reg => exact runs_stop rfl
  | ret => exact runs_stop rfl

theorem computes_moveResultToTarget (h : s.regs .rax = object n) (code : Code) :
    Computes env program target n (moveResultToTarget target ++ .instr .exit :: code) s := by
  cases target with
  | ret => exact ⟨s, runs_stop rfl, h⟩
  | register reg =>
    have hmove : Computes env program (.register reg) n
        (.instr (.mov .rax reg) :: .instr .exit :: code) s :=
      ⟨s.set reg (s.regs .rax), runs_next rfl (runs_stop rfl), (State.set_self s reg _).trans h⟩
    cases reg with
    | rax => exact ⟨s, runs_stop rfl, h⟩
    | _ => exact hmove

theorem Computes.modify {f : Word → Word} (hi : exec env i s = s.modify reg f)
    (hw : s.regs reg = .word w)
    (h : Computes env program target n code (s.set reg (.word (f w)))) :
    Computes env program target n (.instr i :: code) s :=
  h.next (by rw [hi, State.modify, State.word_eq hw]; rfl)

theorem Computes.sar (hk : k < 64) (hw : s.regs reg = .word w)
    (h : Computes env program target n code (s.set reg (.word (w.sshiftRight k)))) :
    Computes env program target n (.instr (.sar k reg) :: code) s := by
  refine Computes.modify (f := fun w => w.sshiftRight (k % 64)) rfl hw ?_
  rwa [Nat.mod_eq_of_lt hk]

theorem Computes.shl (hk : k < 64) (hw : s.regs reg = .word w)
    (h : Computes env program target n code (s.set reg (.word (w <<< k)))) :
    Computes env program target n (.instr (.shl k reg) :: code) s := by
  refine Computes.modify (f := fun w => w <<< (k % 64)) rfl hw ?_
  rwa [Nat.mod_eq_of_lt hk]

theorem Computes.shiftCl {f : Word → ℕ → Word} {j : ℤ} (hi : exec env i s = s.shiftCl reg f)
    (hcl : s.regs .rcx = .word (BitVec.ofInt 64 j)) (hlo : 0 ≤ j) (hhi : j < 64)
    (hw : s.regs reg = .word w)
    (h : Computes env program target n code (s.set reg (.word (f w j.toNat)))) :
    Computes env program target n (.instr i :: code) s := by
  refine h.next ?_
  rw [hi, State.shiftCl, State.word_eq hcl]
  simp only [Option.bind_eq_bind, Option.bind_some, State.modify, State.word_eq hw,
    count_ofInt hlo hhi, Option.map_some]

theorem Computes.unboxFixnum (hn : InFixnumRange x) (hx : s.regs reg = object x)
    (h : Computes env program target n code (s.set reg (.word (BitVec.ofInt 64 x)))) :
    Computes env program target n (Ash.unboxFixnum reg :: code) s := by
  refine Computes.sar (by norm_num) (hx.trans (object_of_range hn)) ?_
  rwa [unbox_fixnumize hn]

theorem Computes.boxFixnum (hx : s.regs reg = .word (BitVec.ofInt 64 x))
    (h : Computes env program target n code (s.set reg (.word (fixnumize x)))) :
    Computes env program target n (Ash.boxFixnum reg :: code) s := by
  refine Computes.shl (by norm_num) hx ?_
  rwa [box_ofInt]

theorem Computes.call {f : Function} {c : Contents} (hf : f.apply s = some c)
    (h : ∀ s', s'.regs .rax = c → Computes env program target n code s') :
    Computes env program target n (.instr (.call f) :: code) s := by
  refine (h _ ?_).next (by rw [exec, hf]; rfl)
  simp only [Function.update_self]

theorem Computes.process1 {arg1 : Arg} (hx : arg1.value env.x = x)
    (h : ∀ s', s'.regs reg = object x → Computes env program target n code s') :
    Computes env program target n (.instr (.process1 arg1 reg) :: code) s := by
  refine (h _ ?_).next rfl
  simp only [Function.update_self, hx]

theorem Computes.process2 {arg1 arg2 : Arg} {reg1 reg2 : Reg64} (hx : arg1.value env.x = x)
    (hs : arg2.value env.shift = shift) (hne : reg1 ≠ reg2)
    (h : ∀ s', s'.regs reg1 = object x → s'.regs reg2 = object shift →
      Computes env program target n code s') :
    Computes env program target n (.instr (.process2 arg1 arg2 reg1 reg2) :: code) s := by
  refine (h _ ?_ ?_).next rfl
  · simp only [Function.update_of_ne hne, Function.update_self, hx]
  · simp only [Function.update_self, hs]

theorem Computes.sarTagged {shift : ℤ} (hx : InFixnumRange x) (hlo : -64 < shift) (hhi : shift < 0)
    (hw : s.regs reg = object x)
    (h : ∀ s', s'.regs reg = object (ash x shift) → Computes env program target n code s') :
    Computes env program target n
      (.instr (.sar (-shift).toNat reg) :: clearTagBits reg :: code) s := by
  refine Computes.sar (by omega) (hw.trans (object_of_range hx)) ?_
  refine Computes.modify rfl (State.set_self _ _ _) (h _ ?_)
  rw [State.set_self, maskByte_sshiftRight_fixnumize hx, ← ash_of_nonpos hhi.le,
    object_of_range (inFixnumRange_ash hx hhi.le)]

/-- A right shift of a tagged word by the negated count in `cl`. -/
theorem Computes.negatedShift (hx : InFixnumRange x) (hlo : -64 < shift) (hhi : shift ≤ 0)
    (hw : s.regs .rax = object x) (hcl : s.regs .rcx = .word (BitVec.ofInt 64 shift))
    (h : ∀ s', s'.regs .rax = object (ash x shift) → Computes env program target n code s') :
    Computes env program target n (Ash.negatedShift ++ code) s := by
  refine Computes.modify rfl hcl ?_
  refine Computes.shiftCl (j := -shift) (w := fixnumize x) rfl ?_ (by omega) (by omega) ?_ ?_
  · rw [State.set_self, BitVec.ofInt_neg]
  · rw [State.set_of_ne _ (by decide), hw, object_of_range hx]
  · refine Computes.modify rfl (State.set_self _ _ _) (h _ ?_)
    rw [State.set_self, maskByte_sshiftRight_fixnumize hx, ← ash_of_nonpos hhi,
      object_of_range (inFixnumRange_ash hx hhi)]

/-! ## Functions -/

theorem apply_ash (hk : clAsh x shift = some n)
    (hrdi : s.regs .rdi = object x) (hrsi : s.regs .rsi = object shift) :
    Function.apply s .ash = some (object n) := by
  simp only [Function.apply, hrdi, hrsi, integer_object, Option.bind_eq_bind, Option.bind_some,
    hk, Option.map_some]

theorem apply_requireInteger (hrdi : s.regs .rdi = object x) :
    Function.apply s .requireInteger = some (object x) := by
  simp only [Function.apply, hrdi, integer_object, Option.map_some]

theorem apply_rtMakeUnsignedInteger (hlo : 0 ≤ x) (hhi : x < 2 ^ 64)
    (hrdi : s.regs .rdi = .word (BitVec.ofInt 64 x)) :
    Function.apply s .rtMakeUnsignedInteger = some (object x) := by
  simp only [Function.apply, State.word_eq hrdi, Option.map_some, toNat_ofInt hlo hhi,
    Int.toNat_of_nonneg hlo]

theorem apply_rtMakeUnsignedBignum (hlo : 2 ^ 61 ≤ x) (hhi : x < 2 ^ 64)
    (hrdi : s.regs .rdi = .word (BitVec.ofInt 64 x)) :
    Function.apply s .rtMakeUnsignedBignum = some (object x) := by
  have hgt : x > Numbers.mostPositiveFixnum := by
    unfold Numbers.mostPositiveFixnum
    omega
  have hbig : ¬InFixnumRange x := fun h => hgt.not_ge h.2
  simp only [Function.apply, State.word_eq hrdi, Option.bind_eq_bind, Option.bind_some,
    toNat_ofInt (show 0 ≤ x by omega) hhi, Int.toNat_of_nonneg (show 0 ≤ x by omega), if_pos hgt,
    object, if_neg hbig]

end Rules

/-! ## Derived types -/

/-- The integers of a derived type; nothing is known of the keyword `:unknown`. -/
def Admits : DeriveType.DerivedType → ℤ → Prop
  | .unknown, _ => True
  | type, n => type.Contains n

/-- The derived types are sound for the operands, and a literal is its own value. -/
structure Call.Sound (c : Call) (x shift : ℤ) : Prop where
  arg1 : c.arg1.value x = x
  arg2 : c.arg2.value shift = shift
  type1 : Admits c.type1 x
  type2 : Admits c.type2 shift
  resultType : Admits c.resultType (ash x shift)

section Admits

variable {type : DeriveType.DerivedType} (hn : Admits type n)

include hn

theorem inFixnumRange_of_fixnumTypeP (h : (DeriveType.fixnumTypeP type).isSome = true) :
    InFixnumRange n := by
  cases type with
  | integer low high =>
    have hword := DeriveType.inWord_of_fixnumTypeP h hn
    unfold IntBits.InWord at hword
    rw [inFixnumRange_iff]
    exact_mod_cast hword
  | _ => cases h

theorem bounds_of_subtypepInteger {low high : Option ℤ}
    (h : subtypepInteger low high type = true) : (∀ a ∈ low, a ≤ n) ∧ ∀ b ∈ high, n ≤ b := by
  cases type with
  | integer low1 high1 => exact DeriveType.contains_of_subtypepInteger h hn
  | _ => cases h

theorem eq_of_integerConstantValue {v : ℤ} (h : integerConstantValue type = some v) : v = n := by
  cases type with
  | integer low high =>
    cases low with
    | none => cases h
    | some low =>
      cases high with
      | none => cases h
      | some high =>
        rw [integerConstantValue] at h
        split_ifs at h with heq
        rw [← Option.some.inj h]
        exact le_antisymm (heq.trans_le (hn.1 low rfl)) (hn.2 high rfl)
  | _ => cases h

theorem value_replace {arg : Arg} (harg : arg.value n = n) : (arg.replace type).value n = n := by
  unfold Arg.replace
  cases hv : integerConstantValue type with
  | none => exact harg
  | some v =>
    obtain rfl := eq_of_integerConstantValue hn hv
    cases arg with
    | literal m =>
      dsimp only
      split_ifs
      · exact harg
      · rfl
    | form flushable => cases flushable <;> rfl

end Admits

/-! ## The clauses -/

section Clauses

variable {c : Call} {arg1 arg2 : Arg} {safety : ℕ} {target : Target} {trash : Reg64 → Contents}
  {program : Code} {s : State}

theorem computes_p2Constant {env : Env} (m : ℤ) (code : Code) :
    Computes env program target m (p2Constant m target ++ .instr .exit :: code) s :=
  Computes.next rfl (computes_exit (State.set_self _ _ _) code)

theorem computes_effect {env : Env} {arg : Arg} {code : Code}
    (h : ∀ s, Computes env program target n code s) :
    Computes env program target n (effect arg ++ code) s := by
  unfold effect
  split_ifs
  · exact h s
  · exact (h _).next rfl

variable (hc : c.Sound x shift) (harg1 : arg1.value x = x) (code : Code)

include hc in
theorem computes_fullCall (hk : clAsh x shift = some n) :
    Computes ⟨x, shift, trash⟩ program target n
      (fullCall c target ++ .instr .exit :: code) s := by
  refine Computes.process2 hc.arg1 hc.arg2 (by decide) fun s₁ hrdi hrsi => ?_
  refine Computes.call (apply_ash hk hrdi hrsi) fun s₂ hrax => ?_
  exact computes_moveResultToTarget hrax code

include hc harg1 in
theorem computes_zeroShift (hshift : shift = 0) :
    Computes ⟨x, shift, trash⟩ program target (ash x shift)
      (zeroShift c arg1 arg2 safety target ++ .instr .exit :: code) s := by
  have hash : ash x shift = x := by
    rw [hshift, ash_of_nonneg le_rfl]
    simp
  rw [hash]
  unfold zeroShift
  split_ifs
  · exact Computes.process1 harg1 fun s₁ h₁ => computes_exit h₁ code
  · refine Computes.process1 harg1 fun s₁ h₁ => ?_
    refine Computes.call (apply_requireInteger h₁) fun s₂ h₂ => ?_
    exact computes_moveResultToTarget h₂ code
  · refine Computes.process2 hc.arg1 hc.arg2 (by decide) fun s₁ h₁ _ => ?_
    refine Computes.call (apply_requireInteger h₁) fun s₂ h₂ => ?_
    exact computes_moveResultToTarget h₂ code

/-- The evaluation of the two arguments of a shift by `cl`, whose count is unboxed. -/
theorem computes_unboxedCount (hs : InFixnumRange shift) {rest : Code}
    (h : ∀ s', s'.regs .rax = object x → s'.regs .rcx = .word (BitVec.ofInt 64 shift) →
      Computes ⟨x, shift, trash⟩ program target n rest s')
    (hc : c.Sound x shift) :
    Computes ⟨x, shift, trash⟩ program target n
      (.instr (.process2 c.arg1 c.arg2 .rax .rcx) :: unboxFixnum .rcx :: rest) s := by
  refine Computes.process2 hc.arg1 hc.arg2 (by decide) fun s₁ hrax hrcx => ?_
  refine Computes.unboxFixnum hs hrcx (h _ ?_ (State.set_self _ _ _))
  rw [State.set_of_ne _ (by decide), hrax]

theorem computes_shlCl {env : Env} {reg : Reg64} {w : Word} {rest : Code} (hlo : 0 ≤ shift)
    (hhi : shift < 64) (hcl : s.regs .rcx = .word (BitVec.ofInt 64 shift))
    (hw : s.regs reg = .word w)
    (h : Computes env program target n rest (s.set reg (.word (w <<< shift.toNat)))) :
    Computes env program target n (.instr (.shlCl reg) :: rest) s :=
  Computes.shiftCl (f := fun w n => w <<< n) rfl hcl hlo hhi hw h

theorem fixnumize_ash (hs : 0 ≤ shift) : fixnumize x <<< shift.toNat = fixnumize (ash x shift) := by
  rw [fixnumize_shiftLeft, ash_of_nonneg hs]

/-- A shift of a tagged word to the left by the unboxed count in `cl`. -/
theorem computes_shlTagged {env : Env} {rest : Code} (hx : InFixnumRange x)
    (hr : InFixnumRange (ash x shift)) (hlo : 0 ≤ shift) (hhi : shift < 64)
    (hrax : s.regs .rax = object x) (hcl : s.regs .rcx = .word (BitVec.ofInt 64 shift))
    (h : ∀ s', s'.regs .rax = object (ash x shift) → Computes env program target n rest s') :
    Computes env program target n (.instr (.shlCl .rax) :: rest) s := by
  refine computes_shlCl hlo hhi hcl (hrax.trans (object_of_range hx)) (h _ ?_)
  rw [State.set_self, fixnumize_ash hlo, object_of_range hr]

section Fixnums

variable (hxf : InFixnumRange x) (hsf : InFixnumRange shift) (hrf : InFixnumRange (ash x shift))

include hc harg1 hxf hsf hrf

theorem computes_knownFixnumShift (hlo : -64 < shift) (hhi : shift < 64) :
    Computes ⟨x, shift, trash⟩ program target (ash x shift)
      (knownFixnumShift c arg1 arg2 target shift ++ .instr .exit :: code) s := by
  unfold knownFixnumShift
  by_cases hflush : arg2.flushable = true
  · rw [if_pos hflush]
    have hend : ∀ s' : State, s'.regs target.reg = object (ash x shift) →
        Computes ⟨x, shift, trash⟩ program target (ash x shift)
          ((if target = .register target.reg then [] else moveResultToTarget target) ++
            .instr .exit :: code) s' := by
      intro s' h'
      cases target with
      | register reg =>
        rw [if_pos (show Target.register reg = .register (Target.register reg).reg from rfl)]
        exact computes_exit h' code
      | ret => exact computes_moveResultToTarget h' code
    dsimp only
    rw [List.cons_append, List.append_assoc]
    refine Computes.process1 harg1 fun s₁ h₁ => ?_
    by_cases hneg : shift < 0
    · rw [if_pos hneg]
      exact Computes.sarTagged hxf hlo hneg h₁ hend
    · rw [if_neg hneg]
      refine Computes.shl (by omega) (h₁.trans (object_of_range hxf)) (hend _ ?_)
      rw [State.set_self, fixnumize_ash (by omega), object_of_range hrf]
  · rw [if_neg hflush, List.cons_append, List.cons_append, List.append_assoc]
    refine computes_unboxedCount hsf (fun s₁ hrax hrcx => ?_) hc
    by_cases hneg : shift < 0
    · rw [if_pos hneg]
      exact Computes.negatedShift hxf hlo hneg.le hrax hrcx fun s₂ h₂ =>
        computes_moveResultToTarget h₂ code
    · rw [if_neg hneg]
      exact computes_shlTagged hxf hrf (by omega) hhi hrax hrcx fun s₂ h₂ =>
        computes_moveResultToTarget h₂ code

theorem computes_fixnumShift (hk : clAsh x shift = some (ash x shift)) :
    Computes ⟨x, shift, trash⟩ program target (ash x shift)
      (fixnumShift c arg1 arg2 target ++ .instr .exit :: code) s := by
  unfold fixnumShift
  split
  next k hk =>
    obtain ⟨hconst, hlt⟩ := Option.filter_eq_some_iff.mp hk
    obtain rfl := eq_of_integerConstantValue hc.type2 hconst
    obtain ⟨hlo, hhi⟩ := abs_lt.mp (of_decide_eq_true hlt)
    exact computes_knownFixnumShift hc harg1 code hxf hsf hrf hlo hhi
  next =>
    split_ifs with hright hleft
    · have hbounds := bounds_of_subtypepInteger hc.type2 hright
      have hlo : -63 ≤ shift := hbounds.1 _ rfl
      have hhi : shift ≤ 0 := hbounds.2 _ rfl
      rw [List.cons_append, List.cons_append, List.append_assoc]
      refine computes_unboxedCount hsf (fun s₁ hrax hrcx => ?_) hc
      exact Computes.negatedShift hxf (by omega) hhi hrax hrcx fun s₂ h₂ =>
        computes_moveResultToTarget h₂ code
    · have hbounds := bounds_of_subtypepInteger hc.type2 hleft
      have hlo : 0 ≤ shift := hbounds.1 _ rfl
      have hhi : shift ≤ 63 := hbounds.2 _ rfl
      refine computes_unboxedCount hsf (fun s₁ hrax hrcx => ?_) hc
      exact computes_shlTagged hxf hrf hlo (by omega) hrax hrcx fun s₂ h₂ =>
        computes_moveResultToTarget h₂ code
    · exact computes_fullCall hc code hk

end Fixnums

theorem computes_unboxedShift (hc : c.Sound x shift) (hxf : InFixnumRange x) (hlo : 0 < shift)
    (hhi : shift < 64) (hr0 : 0 ≤ ash x shift) (hr64 : ash x shift < 2 ^ 64) (code : Code) :
    Computes ⟨x, shift, trash⟩ program target (ash x shift)
      (unboxedShift c target ++ .instr .exit :: code) s := by
  have hsf : InFixnumRange shift := by
    rw [inFixnumRange_iff]
    omega
  refine Computes.process2 hc.arg1 hc.arg2 (by decide) fun s₁ hrax hrcx => ?_
  refine Computes.unboxFixnum hxf hrax ?_
  refine Computes.unboxFixnum hsf ((State.set_of_ne _ (by decide) _).trans hrcx) ?_
  refine computes_shlCl (w := BitVec.ofInt 64 x) hlo.le hhi (State.set_self _ _ _) ?_ ?_
  · rw [State.set_of_ne _ (by decide), State.set_self]
  · refine Computes.next rfl ?_
    refine Computes.call (apply_rtMakeUnsignedInteger hr0 hr64 ?_) fun s₂ h₂ => ?_
    · rw [State.set_self, State.set_self, ofInt_shiftLeft, ash_of_nonneg hlo.le]
    · exact computes_moveResultToTarget h₂ code

/-! ### Clauses with a full call elsewhere -/

theorem after_moveResultToTarget_append (l : Label) (code : Code) :
    after l (moveResultToTarget target ++ code) = after l code := by
  cases target with
  | ret => rfl
  | register reg => cases reg <;> rfl

theorem computes_fullCallUnlessFixnum {env : Env} {rest full : Code} (htype : Admits c.type1 x)
    (hrax : s.regs .rax = object x)
    (hfull : (DeriveType.fixnumTypeP c.type1).isSome = false → after .fullCall program = some full)
    (hfix : InFixnumRange x → ∀ s', s'.regs = s.regs → Computes env program target n rest s')
    (hcall : (DeriveType.fixnumTypeP c.type1).isSome = false → ∀ s', s'.regs = s.regs →
      Computes env program target n full s') :
    Computes env program target n (fullCallUnlessFixnum c ++ rest) s := by
  unfold fullCallUnlessFixnum
  cases htypeP : (DeriveType.fixnumTypeP c.type1).isSome with
  | true =>
    rw [if_pos rfl]
    exact hfix (inFixnumRange_of_fixnumTypeP htype htypeP) s rfl
  | false =>
    rw [if_neg Bool.false_ne_true, List.cons_append, List.cons_append, List.nil_append]
    refine Computes.next rfl ?_
    have hflags := nz_testFlags_object x
    rw [← hrax] at hflags
    by_cases hx : InFixnumRange x
    · exact Computes.noJump (hflags.trans (by simpa using hx)) (hfix hx _ rfl)
    · exact Computes.jump (hflags.trans (by simpa using hx)) (hfull htypeP) (hcall htypeP _ rfl)

include hc harg1 in
theorem computes_processKnown {rest : Code}
    (h : ∀ s', s'.regs .rax = object x → (arg2.flushable = false → s'.regs .rcx = object shift) →
      Computes ⟨x, shift, trash⟩ program target n rest s') :
    Computes ⟨x, shift, trash⟩ program target n
      ((if arg2.flushable then .instr (.process1 arg1 .rax)
        else .instr (.process2 c.arg1 c.arg2 .rax .rcx)) :: rest) s := by
  cases hflush : arg2.flushable with
  | true =>
    rw [hflush] at h
    exact Computes.process1 harg1 fun s₁ h₁ => h s₁ h₁ (by simp)
  | false =>
    rw [hflush] at h
    exact Computes.process2 hc.arg1 hc.arg2 (by decide) fun s₁ h₁ h₂ => h s₁ h₁ fun _ => h₂

theorem after_negativeShift (target : Target) (shift : ℤ) (arg1 arg2 : Arg)
    (htypeP : (DeriveType.fixnumTypeP c.type1).isSome = false) :
    after .exit (negativeShift c arg1 arg2 target shift).code =
        some (moveResultToTarget target ++
          .instr .exit :: (negativeShift c arg1 arg2 target shift).elsewhere) ∧
      after .fullCall (negativeShift c arg1 arg2 target shift).code =
        some [.instr (.mov .rax .rdi),
          .instr (if arg2.flushable then .movImm (fixnumize shift) .rsi else .mov .rcx .rsi),
          .instr (.call .ash), jump .t .exit] := by
  cases hflush : arg2.flushable <;>
    simp [Segments.code, negativeShift, fullCallUnlessFixnum, htypeP, hflush, after, jump,
      clearTagBits, after_moveResultToTarget_append]

include hc harg1 in
theorem computes_negativeShift (hk : clAsh x shift = some (ash x shift)) (hlo : -64 < shift)
    (hhi : shift < 0) :
    Computes ⟨x, shift, trash⟩ (negativeShift c arg1 arg2 target shift).code target (ash x shift)
      (negativeShift c arg1 arg2 target shift).code s := by
  have hsf : InFixnumRange shift := by
    rw [inFixnumRange_iff]
    omega
  cases htypeP : (DeriveType.fixnumTypeP c.type1).isSome with
  | true =>
    have hxf := inFixnumRange_of_fixnumTypeP hc.type1 htypeP
    simp only [Segments.code, negativeShift, fullCallUnlessFixnum, htypeP, if_true,
      List.nil_append, List.cons_append]
    refine computes_processKnown hc harg1 fun s₁ hrax _ => ?_
    exact Computes.sarTagged hxf hlo hhi hrax fun s₂ h₂ => computes_moveResultToTarget h₂ _
  | false =>
    obtain ⟨hexit, hfull⟩ := after_negativeShift target shift arg1 arg2 htypeP
    generalize hprogram : (negativeShift c arg1 arg2 target shift).code = program at hexit hfull
    nth_rewrite 2 [← hprogram]
    simp only [Segments.code, negativeShift, htypeP, Bool.false_eq_true, if_false,
      List.cons_append, List.append_assoc, List.nil_append]
    refine computes_processKnown hc harg1 fun s₁ hrax hrcx => ?_
    refine computes_fullCallUnlessFixnum hc.type1 hrax (fun _ => hfull) (fun hxf s₂ h₂ => ?_)
      fun _ s₂ h₂ => ?_
    · refine Computes.sarTagged hxf hlo hhi (h₂ ▸ hrax) fun s₃ h₃ => ?_
      exact Computes.jump rfl hexit (computes_moveResultToTarget h₃ _)
    · refine Computes.next rfl ?_
      have hend : ∀ s', s'.regs .rdi = object x → s'.regs .rsi = object shift →
          Computes ⟨x, shift, trash⟩ program target (ash x shift)
            [.instr (.call .ash), jump .t .exit] s' := by
        intro s' hrdi hrsi
        refine Computes.call (apply_ash hk hrdi hrsi) fun s₃ h₃ => ?_
        exact Computes.jump rfl hexit (computes_moveResultToTarget h₃ _)
      cases hflush : arg2.flushable with
      | true =>
        refine (hend _ ?_ ?_).next rfl
        · rw [State.set_of_ne _ (by decide), State.set_self, h₂, hrax]
        · rw [State.set_self, object_of_range hsf]
      | false =>
        refine (hend _ ?_ ?_).next rfl
        · rw [State.set_of_ne _ (by decide), State.set_self, h₂, hrax]
        · rw [State.set_self, State.set_of_ne _ (by decide), h₂, hrcx hflush]

/-- The code of an unsigned shift after the evaluation of the arguments and the tag test. -/
def unsignedShiftRest (target : Target) (elsewhere : Code) : Code :=
  unboxFixnum .rcx :: unboxFixnum .rax :: .instr (.test .rcx .rcx) ::
    jump (.cond .s) .rightShift :: .instr (.shlCl .rax) :: .instr (.movImm overflowMask .rdx) ::
    .instr (.test .rax .rdx) :: jump (.cond .nz) .bignum :: boxFixnum .rax :: jump .t .exit ::
    .label .rightShift :: .instr (.neg .rcx) :: .instr (.sarCl .rax) :: boxFixnum .rax ::
    .label .exit :: (moveResultToTarget target ++ .instr .exit :: elsewhere)

theorem after_unsignedShift (c : Call) (target : Target) :
    after .exit (unsignedShift c target).code =
        some (moveResultToTarget target ++ .instr .exit :: (unsignedShift c target).elsewhere) ∧
      after .rightShift (unsignedShift c target).code =
        some (.instr (.neg .rcx) :: .instr (.sarCl .rax) :: boxFixnum .rax :: .label .exit ::
          (moveResultToTarget target ++ .instr .exit :: (unsignedShift c target).elsewhere)) ∧
      (∃ code, after .bignum (unsignedShift c target).code =
        some (.instr (.mov .rax .rdi) :: .instr (.call .rtMakeUnsignedBignum) :: jump .t .exit ::
          code)) ∧
      ((DeriveType.fixnumTypeP c.type1).isSome = false →
        after .fullCall (unsignedShift c target).code =
          some [.instr (.mov .rcx .rsi), .instr (.mov .rax .rdi), .instr (.call .ash),
            jump .t .exit]) := by
  cases htypeP : (DeriveType.fixnumTypeP c.type1).isSome <;>
    simp [Segments.code, unsignedShift, fullCallUnlessFixnum, htypeP, after, jump, unboxFixnum,
      boxFixnum, after_moveResultToTarget_append]

theorem s_wordTestFlags (hn : InFixnumRange n) :
    Cond.holds (wordTestFlags (BitVec.ofInt 64 n) (BitVec.ofInt 64 n)) .s = decide (n < 0) := by
  show (BitVec.ofInt 64 n &&& BitVec.ofInt 64 n).msb = _
  rw [BitVec.and_self, BitVec.msb_eq_toInt, toInt_unboxed hn]

theorem nz_wordTestFlags (hlo : 0 ≤ n) (hhi : n < 2 ^ 64) :
    Cond.holds (wordTestFlags (BitVec.ofInt 64 n) overflowMask) .nz =
      decide (¬InFixnumRange n) := by
  have h := and_overflowMask_eq_zero_iff (BitVec.ofInt 64 n)
  rw [toNat_ofInt hlo hhi] at h
  show (!(BitVec.ofInt 64 n &&& overflowMask == 0)) = _
  rw [Bool.eq_iff_iff, Bool.not_eq_true', beq_eq_false_iff_ne, ne_eq, h, decide_eq_true_eq,
    inFixnumRange_iff]
  omega

theorem computes_unsignedShiftRest {env : Env} {elsewhere bignum : Code}
    (hexit : after .exit program =
      some (moveResultToTarget target ++ .instr .exit :: elsewhere))
    (hright : after .rightShift program =
      some (.instr (.neg .rcx) :: .instr (.sarCl .rax) :: boxFixnum .rax :: .label .exit ::
        (moveResultToTarget target ++ .instr .exit :: elsewhere)))
    (hbignum : after .bignum program =
      some (.instr (.mov .rax .rdi) :: .instr (.call .rtMakeUnsignedBignum) :: jump .t .exit ::
        bignum))
    (hxf : InFixnumRange x) (hlo : -64 < shift) (hhi : shift < 64)
    (hr0 : 0 ≤ ash x shift) (hr64 : ash x shift < 2 ^ 64)
    (hrax : s.regs .rax = object x) (hrcx : s.regs .rcx = object shift) :
    Computes env program target (ash x shift) (unsignedShiftRest target elsewhere) s := by
  have hsf : InFixnumRange shift := by
    rw [inFixnumRange_iff]
    omega
  refine Computes.unboxFixnum hsf hrcx ?_
  refine Computes.unboxFixnum hxf ((State.set_of_ne _ (by decide) _).trans hrax) ?_
  generalize hs₁ : ((s.set .rcx (.word (BitVec.ofInt 64 shift))).set .rax
    (.word (BitVec.ofInt 64 x))) = s₁
  have hrax₁ : s₁.regs .rax = .word (BitVec.ofInt 64 x) := by
    rw [← hs₁, State.set_self]
  have hrcx₁ : s₁.regs .rcx = .word (BitVec.ofInt 64 shift) := by
    rw [← hs₁, State.set_of_ne _ (by decide), State.set_self]
  have htest : exec env (.test .rcx .rcx) s₁ = some (.next { s₁ with
      flags := wordTestFlags (BitVec.ofInt 64 shift) (BitVec.ofInt 64 shift) }) := by
    rw [exec, State.word_eq hrcx₁]
    rfl
  refine Computes.next htest ?_
  by_cases hneg : shift < 0
  · -- to the right
    refine Computes.jump ((s_wordTestFlags hsf).trans (decide_eq_true hneg)) hright ?_
    refine Computes.modify rfl hrcx₁ ?_
    refine Computes.shiftCl (j := -shift) (w := BitVec.ofInt 64 x) rfl ?_ (by omega) (by omega)
      ?_ ?_
    · rw [State.set_self, BitVec.ofInt_neg]
    · rw [State.set_of_ne _ (by decide)]
      exact hrax₁
    · have hrf := inFixnumRange_ash hxf hneg.le
      refine Computes.boxFixnum (x := ash x shift) ?_ ?_
      · rw [State.set_self, sshiftRight_eq_ofInt, toInt_unboxed hxf, ash_of_nonpos hneg.le]
      · refine Computes.label (computes_moveResultToTarget ?_ _)
        rw [State.set_self, object_of_range hrf]
  · have hpos : 0 ≤ shift := by omega
    refine Computes.noJump ((s_wordTestFlags hsf).trans (decide_eq_false hneg)) ?_
    refine computes_shlCl hpos hhi hrcx₁ hrax₁ ?_
    rw [ofInt_shiftLeft, ← ash_of_nonneg hpos]
    refine Computes.next rfl ?_
    generalize hs₂ : (State.set _ .rdx (.word overflowMask)) = s₂
    have hrax₂ : s₂.regs .rax = .word (BitVec.ofInt 64 (ash x shift)) := by
      rw [← hs₂, State.set_of_ne _ (by decide), State.set_self]
    have hrdx₂ : s₂.regs .rdx = .word overflowMask := by
      rw [← hs₂, State.set_self]
    have htest₂ : exec env (.test .rax .rdx) s₂ = some (.next { s₂ with
        flags := wordTestFlags (BitVec.ofInt 64 (ash x shift)) overflowMask }) := by
      rw [exec, State.word_eq hrax₂, State.word_eq hrdx₂]
      rfl
    refine Computes.next htest₂ ?_
    have hflags := nz_wordTestFlags hr0 hr64
    by_cases hrf : InFixnumRange (ash x shift)
    · refine Computes.noJump (hflags.trans (by simpa using hrf)) ?_
      refine Computes.boxFixnum hrax₂ (Computes.jump rfl hexit (computes_moveResultToTarget ?_ _))
      rw [State.set_self, object_of_range hrf]
    · refine Computes.jump (hflags.trans (by simpa using hrf)) hbignum ?_
      have hbig : 2 ^ 61 ≤ ash x shift := by
        rw [inFixnumRange_iff] at hrf
        omega
      refine Computes.next rfl ?_
      refine Computes.call (apply_rtMakeUnsignedBignum hbig hr64 ?_) fun s₃ h₃ => ?_
      · rw [State.set_self]
        exact hrax₂
      · exact Computes.jump rfl hexit (computes_moveResultToTarget h₃ _)

include hc in
theorem computes_unsignedShift (hk : clAsh x shift = some (ash x shift)) (hlo : -64 < shift)
    (hhi : shift < 64) (hr0 : 0 ≤ ash x shift) (hr64 : ash x shift < 2 ^ 64) :
    Computes ⟨x, shift, trash⟩ (unsignedShift c target).code target (ash x shift)
      (unsignedShift c target).code s := by
  obtain ⟨hexit, hright, ⟨bignum, hbignum⟩, hfull⟩ := after_unsignedShift c target
  have hcode : (unsignedShift c target).code =
      .instr (.process2 c.arg1 c.arg2 .rax .rcx) :: (fullCallUnlessFixnum c ++
        unsignedShiftRest target (unsignedShift c target).elsewhere) := by
    simp [Segments.code, unsignedShift, unsignedShiftRest]
  generalize (unsignedShift c target).elsewhere = elsewhere at *
  generalize hprogram : (unsignedShift c target).code = program at *
  nth_rewrite 2 [hcode]
  refine Computes.process2 hc.arg1 hc.arg2 (by decide) fun s₁ hrax hrcx => ?_
  refine computes_fullCallUnlessFixnum hc.type1 hrax hfull (fun hxf s₂ h₂ => ?_) fun _ s₂ h₂ => ?_
  · exact computes_unsignedShiftRest hexit hright hbignum hxf hlo hhi hr0 hr64 (h₂ ▸ hrax)
      (h₂ ▸ hrcx)
  · refine Computes.next rfl (Computes.next rfl ?_)
    refine Computes.call (apply_ash hk ?_ ?_) fun s₃ h₃ => ?_
    · rw [State.set_self, State.set_of_ne _ (by decide), h₂, hrax]
    · rw [State.set_of_ne _ (by decide), State.set_self, h₂, hrcx]
    · exact Computes.jump rfl hexit (computes_moveResultToTarget h₃ _)

/-- The code of a function leaves the object of `n`, whatever the registers held before. -/
def Segments.Exact (segments : Segments) (env : Env) (target : Target) (n : ℤ) : Prop :=
  ∀ s, Computes env segments.code target n segments.code s

include hc harg1 in
theorem exact_ashClauses (hk : clAsh x shift = some n) (arg2 : Arg) (safety : ℕ) :
    (ashClauses c arg1 arg2 safety target).Exact ⟨x, shift, trash⟩ target n := by
  have hfixnum : InFixnumRange shift → n = ash x shift := fun hs => value_eq_of_fixnum hs hk
  have hsmall : -64 < shift → shift < 64 → n = ash x shift := by
    intro hlo hhi
    refine hfixnum (inFixnumRange_iff.mpr ?_)
    omega
  unfold ashClauses
  dsimp only
  split
  next hzero =>
    obtain rfl := eq_of_integerConstantValue hc.type2 hzero
    obtain rfl := hsmall (by norm_num) (by norm_num)
    exact fun s => computes_zeroShift hc harg1 [] rfl
  next =>
  split
  next hzeroArg =>
    obtain rfl := eq_of_integerConstantValue hc.type1 hzeroArg.1
    have hn : n = 0 := by
      rw [clAsh, if_pos rfl, ite_self] at hk
      exact (Option.some.inj hk).symm
    intro s
    rw [Segments.code, List.append_assoc, List.append_assoc, hn]
    exact computes_effect fun s => computes_effect fun s => computes_p2Constant 0 []
  next =>
  split
  next hfixnums =>
    have hsf := inFixnumRange_of_fixnumTypeP hc.type2 hfixnums.2.1
    obtain rfl := hfixnum hsf
    exact fun s => computes_fixnumShift hc harg1 []
      (inFixnumRange_of_fixnumTypeP hc.type1 hfixnums.1) hsf
      (inFixnumRange_of_fixnumTypeP hc.resultType hfixnums.2.2) hk
  next =>
  split
  next k hneg =>
    obtain ⟨hconst, hrange⟩ := Option.filter_eq_some_iff.mp hneg
    obtain rfl := eq_of_integerConstantValue hc.type2 hconst
    obtain ⟨hlo, hhi⟩ := of_decide_eq_true hrange
    have hlo : -64 < k := hlo
    obtain rfl := hsmall hlo (by omega)
    exact fun s => computes_negativeShift hc harg1 hk hlo hhi
  next =>
  split
  next hunboxed =>
    obtain ⟨hshift, htype1, hresult⟩ := hunboxed
    obtain ⟨k, hconst, hrange⟩ := (Option.any_eq_true _ _).mp hshift
    obtain rfl := eq_of_integerConstantValue hc.type2 hconst
    obtain ⟨hlo, hhi⟩ := of_decide_eq_true hrange
    have hhi : k < 64 := hhi
    obtain rfl := hsmall (by omega) hhi
    have hbounds := bounds_of_subtypepInteger hc.resultType hresult
    have hr0 : 0 ≤ ash x k := hbounds.1 _ rfl
    have hr64 : ash x k ≤ 2 ^ 64 - 1 := hbounds.2 _ rfl
    exact fun s => computes_unboxedShift hc (inFixnumRange_of_fixnumTypeP hc.type1 htype1) hlo hhi
      hr0 (by omega) []
  next =>
  split
  next hunsigned =>
    obtain ⟨-, htype2, hresult⟩ := hunsigned
    have hcount := bounds_of_subtypepInteger hc.type2 htype2
    have hlo : -63 ≤ shift := hcount.1 _ rfl
    have hhi : shift ≤ 63 := hcount.2 _ rfl
    obtain rfl := hsmall (by omega) (by omega)
    have hbounds := bounds_of_subtypepInteger hc.resultType hresult
    have hr0 : 0 ≤ ash x shift := hbounds.1 _ rfl
    have hr64 : ash x shift ≤ 2 ^ 64 - 1 := hbounds.2 _ rfl
    exact fun s => computes_unsignedShift hc hk (by omega) (by omega) hr0 (by omega)
  next => exact fun s => computes_fullCall hc [] hk

end Clauses

/-- **The code for `(ash x shift)` leaves the value of the kernel function in the register of the
target**, whatever the registers held before; and this value is `x * 2 ^ shift`, rounded down, where
it is an integer that the kernel can represent. -/
theorem p2Ash_exact (c : Call) (safety : ℕ) (target : Target) {x shift : ℤ}
    (hc : c.Sound x shift) (trash : Reg64 → Contents) (s : State) :
    (∀ n, clAsh x shift = some n →
      ∃ segments, p2Ash c safety target = some segments ∧
        ∃ s', Runs (exec ⟨x, shift, trash⟩) segments.code segments.code s (.stopped s') ∧
          s'.regs target.reg = object n) ∧
      (LispInteger x → LispInteger ⌊(x : ℚ) * 2 ^ shift⌋ →
        clAsh x shift = some ⌊(x : ℚ) * 2 ^ shift⌋) := by
  constructor
  · intro n hk
    have harg1 := value_replace hc.type1 hc.arg1
    have harg2 := value_replace hc.type2 hc.arg2
    unfold p2Ash
    dsimp only
    generalize c.arg1.replace c.type1 = arg1 at *
    generalize c.arg2.replace c.type2 = arg2 at *
    split
    next a b =>
      obtain rfl : a = x := harg1
      obtain rfl : b = shift := harg2
      rw [hk]
      exact ⟨_, rfl, computes_p2Constant _ []⟩
    next =>
    split
    next a b ha hb =>
      obtain rfl := eq_of_integerConstantValue hc.type1 ha
      obtain rfl := eq_of_integerConstantValue hc.type2 hb
      rw [hk]
      refine ⟨_, rfl, ?_⟩
      rw [Segments.code, List.append_assoc, List.append_assoc]
      exact computes_effect fun s => computes_effect fun s => computes_p2Constant _ []
    next => exact ⟨_, rfl, exact_ashClauses hc harg1 hk arg2 safety s⟩
  · intro hx hr
    rw [← ash_eq_floor] at hr ⊢
    exact clAsh_eq hx hr

/-- A form whose code is that of the clause for unsigned integers. -/
def unsignedCall : Call where
  arg1 := .form false
  arg2 := .form false
  type1 := .integer (some 0) (some 2305843009213693951)
  type2 := .integer (some (-63)) (some 63)
  resultType := .integer (some 0) (some (2 ^ 64 - 1))

theorem sound_unsignedCall : unsignedCall.Sound (2 ^ 60) 3 := by
  have hash : ash (2 ^ 60) 3 = 2 ^ 63 := rfl
  refine ⟨rfl, rfl, ?_, ?_, ?_⟩ <;> constructor <;>
    simp only [Option.mem_some_iff, forall_eq', hash] <;> norm_num

/-- A shift of a fixnum into a bignum. -/
theorem p2Ash_exact_unsignedCall :
    (∃ segments, p2Ash unsignedCall 1 (.register .rbx) = some segments ∧
      ∃ s', Runs (exec ⟨2 ^ 60, 3, fun _ => .word 0⟩) segments.code segments.code
          ⟨fun _ => .word 0, ⟨false, false, false, false⟩⟩ (.stopped s') ∧
        s'.regs .rbx = object (2 ^ 63)) ∧
      clAsh (2 ^ 60) 3 = some ⌊((2 ^ 60 : ℤ) : ℚ) * 2 ^ (3 : ℤ)⌋ := by
  obtain ⟨hcode, hkernel⟩ := p2Ash_exact unsignedCall 1 (.register .rbx) sound_unsignedCall
    (fun _ => .word 0) ⟨fun _ => .word 0, ⟨false, false, false, false⟩⟩
  have hash : ash (2 ^ 60) 3 = 2 ^ 63 := rfl
  refine ⟨hcode (2 ^ 63) (by decide), hkernel (lispInteger_of_lt (by norm_num)) ?_⟩
  rw [← ash_eq_floor, hash]
  exact lispInteger_of_lt (by norm_num)

end Xcl.P2.Ash
