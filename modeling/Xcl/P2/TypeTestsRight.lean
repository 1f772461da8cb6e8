import Xcl.P2.TypeTests

/-!
# Which tests of compiled code are right

* **`test_right_iff`**: every handler evaluates its argument once and goes to the right label, but
  for the one that takes a derived fixnum type for the value.
-/

namespace Xcl.P2.TypeTest

open X86 (Reg64 Word testFlags subFlags)
open FlatCode

variable {E : Type} {env : Env E} {program code : Code} {m : Machine E} {l : Label}
  {events : List E} {labels : Labels} {o : Object}

/-! ## Execution -/

/-- Control leaves the program at the label `l`, with the side effects `events`. -/
def Goes (env : Env E) (program code : Code) (m : Machine E) (l : Label) (events : List E) :
    Prop :=
  ∃ m', Runs (exec env) program code m (.left l m') ∧ m'.events = events

theorem Goes.next {m' : Machine E} {i : Instr} (hi : exec env i m = some (.next m'))
    (h : Goes env program code m' l events) : Goes env program (.instr i :: code) m l events := by
  obtain ⟨t, hruns, ht⟩ := h
  exact ⟨t, runs_next hi hruns, ht⟩

theorem Goes.label {l' : Label} (h : Goes env program code m l events) :
    Goes env program (.label l' :: code) m l events := by
  obtain ⟨t, hruns, ht⟩ := h
  exact ⟨t, runs_label hruns, ht⟩

theorem Goes.check {i : CheckInstr} {cpu : X86.State} (hi : execCheck m.cpu i = .reached cpu)
    (h : Goes env program code (m.withCpu cpu) l events) :
    Goes env program (TypeTest.check i :: code) m l events :=
  h.next (by rw [exec, hi])

theorem goes_leave {test : Test} (htest : test.holds m.cpu.flags = true)
    (hl : after l program = none) : Goes env program (jump test l :: code) m l m.events :=
  ⟨m, runs_leave (by rw [exec, if_pos htest]) hl, rfl⟩

theorem Goes.jump {test : Test} {l' : Label} {code' : Code}
    (htest : test.holds m.cpu.flags = true) (hl : after l' program = some code')
    (h : Goes env program code' m l events) :
    Goes env program (TypeTest.jump test l' :: code) m l events := by
  obtain ⟨t, hruns, ht⟩ := h
  refine ⟨t, runs_jump ?_ hl hruns, ht⟩
  rw [exec, if_pos htest]

theorem Goes.noJump {test : Test} {l' : Label} (htest : test.holds m.cpu.flags = false)
    (h : Goes env program code m l events) :
    Goes env program (TypeTest.jump test l' :: code) m l events :=
  h.next (by rw [exec, htest, if_neg Bool.false_ne_true])

/-- The labels of a test that stand outside its code. -/
def Outside (program : Code) : Prop :=
  ∀ l : Label, l ≠ .exit → l ≠ .fullCall → after l program = none

theorem Outside.goes_next (h : Outside program) :
    Goes env program (TypeTest.jump .t .next :: code) m .next m.events :=
  goes_leave rfl (h _ (by decide) (by decide))

theorem goes_dispatch (hout : Outside program) {c c' : Cond} {b : Bool}
    (hc : c.holds m.cpu.flags = b) (hc' : c'.holds m.cpu.flags = !b)
    (hrest : Goes env program code m .next m.events) :
    Goes env program (labels.whenTrue (.cond c) ++ (labels.whenFalse (.cond c') ++ code)) m
      (labels.destination (some b)) m.events := by
  obtain ⟨ifTrue, ifFalse⟩ := labels
  cases b with
  | true =>
    cases ifTrue with
    | true => exact goes_leave hc (hout _ (by decide) (by decide))
    | false =>
      cases ifFalse with
      | true => exact Goes.noJump hc' hrest
      | false => exact hrest
  | false =>
    have hfalse : Goes env program (Labels.whenFalse ⟨ifTrue, ifFalse⟩ (.cond c') ++ code) m
        (Labels.destination ⟨ifTrue, ifFalse⟩ (some false)) m.events := by
      cases ifFalse with
      | true => exact goes_leave hc' (hout _ (by decide) (by decide))
      | false => exact hrest
    cases ifTrue with
    | true => exact Goes.noJump hc hfalse
    | false => exact hfalse

theorem goes_whenTrue_of_not {c : Cond} (hc : c.holds m.cpu.flags = false)
    (h : Goes env program code m l events) :
    Goes env program (labels.whenTrue (.cond c) ++ code) m l events := by
  unfold Labels.whenTrue
  split_ifs
  · exact Goes.noJump hc h
  · exact h

/-- The jump that is emitted when the type decides the test. -/
theorem goes_whenTrue_t (hout : Outside program)
    (hrest : Goes env program code m .next m.events) :
    Goes env program (labels.whenTrue .t ++ code) m (labels.destination (some true)) m.events := by
  obtain ⟨ifTrue, ifFalse⟩ := labels
  cases ifTrue with
  | true => exact goes_leave rfl (hout _ (by decide) (by decide))
  | false => exact hrest

/-! ## Comparisons -/

@[simp] theorem withCpu_events (m : Machine E) (cpu : X86.State) :
    (m.withCpu cpu).events = m.events := rfl

@[simp] theorem withCpu_cpu (m : Machine E) (cpu : X86.State) : (m.withCpu cpu).cpu = cpu := rfl

/-- The registers, the memory and the side effects of `m'` are those of `m`. -/
structure SameButFlags (m' m : Machine E) : Prop where
  regs : m'.cpu.regs = m.cpu.regs
  mem : m'.cpu.mem = m.cpu.mem
  events : m'.events = m.events

theorem goes_compareNil
    (h : ∀ m', SameButFlags m' m →
      Cond.holds m'.cpu.flags .e = decide (m.cpu.regs .rax = env.nilWord) →
      Cond.holds m'.cpu.flags .ne = !decide (m.cpu.regs .rax = env.nilWord) →
      Goes env program code m' l events) :
    Goes env program (compareNil env.nilWord :: code) m l events := by
  refine Goes.check rfl (h _ ⟨rfl, rfl, rfl⟩ ?_ ?_)
  · exact beq_eq_decide _ _
  · exact congrArg (!·) (beq_eq_decide _ _)

theorem lowtag_beq (w : Word) (lowtag : BitVec 8) :
    ((setLowByte w (w.truncate 8 &&& lowtagMask)).truncate 8 == lowtag) =
      decide (w.toNat % 8 = lowtag.toNat) := by
  rw [truncate_setLowByte, ← truncate_and_lowtagMask, Bool.eq_iff_iff, beq_iff_eq,
    decide_eq_true_iff, BitVec.toNat_inj]

theorem goes_compareLowtag {lowtag : BitVec 8}
    (h : ∀ m' : Machine E, m'.events = m.events →
      Cond.holds m'.cpu.flags .e = decide ((m.cpu.regs .rax).toNat % 8 = lowtag.toNat) →
      Cond.holds m'.cpu.flags .ne = !decide ((m.cpu.regs .rax).toNat % 8 = lowtag.toNat) →
      Goes env program code m' l events) :
    Goes env program (compareLowtag lowtag ++ code) m l events := by
  have hzf := lowtag_beq (m.cpu.regs .rax) lowtag
  refine Goes.check rfl (Goes.check rfl (h _ rfl ?_ ?_))
  · exact hzf
  · exact congrArg (!·) hzf

theorem goes_testTag {reg : Reg64}
    (h : ∀ m', SameButFlags m' m →
      Cond.holds m'.cpu.flags .e = fixnump (m.cpu.regs reg) →
      Cond.holds m'.cpu.flags .ne = !fixnump (m.cpu.regs reg) →
      Goes env program code m' l events) :
    Goes env program (testTag reg :: code) m l events := by
  have hnz := and_three_eq (m.cpu.regs reg)
  refine Goes.check rfl (h _ ⟨rfl, rfl, rfl⟩ ?_ hnz)
  exact Bool.not_inj_iff.mp hnz

theorem goes_testq
    (h : ∀ m', SameButFlags m' m →
      m'.cpu.flags = testFlags64 (m.cpu.regs .rax) (m.cpu.regs .rax) →
      Goes env program code m' l events) :
    Goes env program (check (.testq .rax .rax) :: code) m l events :=
  Goes.check rfl (h _ ⟨rfl, rfl, rfl⟩ rfl)

theorem holds_testFlags64 (w : Word) :
    Cond.holds (testFlags64 w w) .z = decide (w = 0) ∧
      Cond.holds (testFlags64 w w) .nz = !decide (w = 0) ∧
      Cond.holds (testFlags64 w w) .g = decide (0 < w.toInt) ∧
      Cond.holds (testFlags64 w w) .ng = !decide (0 < w.toInt) := by
  have hz : (w &&& w == 0) = decide (w = 0) := by
    rw [BitVec.and_self, beq_eq_decide]
  have hs : (w &&& w).msb = decide (w.toInt < 0) := by
    rw [BitVec.and_self, BitVec.msb_eq_toInt]
  have hg : (!(w &&& w == 0) && (w &&& w).msb == false) = decide (0 < w.toInt) := by
    have hzero : w = 0 ↔ w.toInt = 0 := by
      rw [← BitVec.toInt_inj]
      rfl
    rw [hz, hs, Bool.eq_iff_iff]
    simp only [Bool.and_eq_true, Bool.not_eq_true', decide_eq_false_iff_not, beq_iff_eq, hzero,
      decide_eq_true_eq]
    omega
  refine ⟨hz, congrArg (!·) hz, hg, ?_⟩
  rw [← hg]
  show ((w &&& w == 0) || (w &&& w).msb != false) = _
  cases w &&& w == 0 <;> cases (w &&& w).msb <;> rfl

theorem goes_testb
    (h : ∀ m', SameButFlags m' m →
      Cond.holds m'.cpu.flags .z = decide ((m.cpu.regs .rax).truncate 8 = (0 : BitVec 8)) →
      Cond.holds m'.cpu.flags .nz = !decide ((m.cpu.regs .rax).truncate 8 = (0 : BitVec 8)) →
      Goes env program code m' l events) :
    Goes env program (.instr (.testb .rax .rax) :: code) m l events := by
  have hz : ((m.cpu.regs .rax).truncate 8 &&& (m.cpu.regs .rax).truncate 8 == (0 : BitVec 8)) =
      decide ((m.cpu.regs .rax).truncate 8 = (0 : BitVec 8)) := by
    rw [BitVec.and_self, beq_eq_decide]
  refine Goes.next rfl (h _ ⟨rfl, rfl, rfl⟩ ?_ ?_)
  · exact hz
  · exact congrArg (!·) hz

/-! ## Widetags -/

theorem goes_testTypedObject {l' : Label} (hout : after l' program = none)
    (h : (m.cpu.regs .rax).toNat % 8 = 2 → ∀ m' : Machine E, m'.events = m.events →
      m'.cpu.regs .rax = m.cpu.regs .rax → m'.cpu.mem = m.cpu.mem →
      Goes env program code m' l events)
    (hother : (m.cpu.regs .rax).toNat % 8 ≠ 2 → l = l' ∧ events = m.events) :
    Goes env program (testTypedObject l' ++ code) m l events := by
  have hzf : ((setLowByte (setLowByte (m.cpu.regs .rdx) ((m.cpu.regs .rax).truncate 8))
      ((setLowByte (m.cpu.regs .rdx) ((m.cpu.regs .rax).truncate 8)).truncate 8 &&&
        lowtagMask)).truncate 8 == typedObjectLowtag) =
      decide ((m.cpu.regs .rax).toNat % 8 = 2) := by
    rw [truncate_setLowByte, truncate_setLowByte, ← truncate_and_lowtagMask, Bool.eq_iff_iff,
      beq_iff_eq, decide_eq_true_iff, ← BitVec.toNat_inj]
    rfl
  refine Goes.check rfl (Goes.check rfl (Goes.check rfl ?_))
  by_cases htag : (m.cpu.regs .rax).toNat % 8 = 2
  · refine Goes.noJump ?_ (h htag _ rfl rfl rfl)
    exact congrArg (!·) (hzf.trans (decide_eq_true htag))
  · obtain ⟨rfl, rfl⟩ := hother htag
    refine goes_leave ?_ hout
    exact congrArg (!·) (hzf.trans (decide_eq_false htag))

/-- The word in `rax` and the memory are those after the evaluation of the argument form. -/
structure Evaluated (env : Env E) (m : Machine E) : Prop where
  rax : m.cpu.regs .rax = env.word
  mem : m.cpu.mem = env.evaluated.mem

theorem Evaluated.sameButFlags {m' : Machine E} (h : Evaluated env m) (hm : SameButFlags m' m) :
    Evaluated env m' :=
  ⟨(congrFun hm.regs _).trans h.rax, hm.mem.trans h.mem⟩

structure Env.Sound (env : Env E) : Prop where
  nil : env.nilWord.toNat % 8 = 1
  t : env.tWord ≠ env.nilWord
  represents :
    Represents env.nilWord env.widetagOffset env.evaluated.mem env.word env.value

theorem goes_evaluate (h : ∀ m', Evaluated env m' → m'.events = m.events ++ env.events →
      Goes env program code m' l events) :
    Goes env program (.instr .evaluate :: code) m l events := by
  refine Goes.next rfl (h _ ⟨?_, rfl⟩ rfl)
  simp [X86.State.set]

section Widetag

variable (henv : env.Sound) (hm : Evaluated env m) (hout : Outside program)

include henv hm hout

/-- A test of the widetag: `p` are the widetags for which the condition of the jump fails. -/
theorem goes_testWidetag {i : CheckInstr} {c : Cond} {p : Widetag → Bool}
    (hi : ∀ (cpu : X86.State) (widetag : Widetag),
      cpu.mem (cpu.regs .rax + BitVec.ofInt 64 (widetagDisplacement env.widetagOffset)) =
        BitVec.ofNat 64 widetag.code →
      ∃ f, execCheck cpu i = .reached (cpu.setFlags f) ∧ c.holds f = !p widetag)
    (h : env.value.widetag.any p = true → ∀ m' : Machine E, m'.events = m.events →
      Goes env program code m' l events)
    (hother : env.value.widetag.any p = false → l = .ifFalse ∧ events = m.events) :
    Goes env program
      (testTypedObject .ifFalse ++ check i :: jump (.cond c) .ifFalse :: code) m l events := by
  have hrep := henv.represents
  have htag := hrep.lowtag_eq_two_iff henv.nil
  refine goes_testTypedObject (hout _ (by decide) (by decide)) (fun h2 m₁ hev hrax hmem => ?_)
    fun h2 => hother ?_
  · rw [hm.rax] at hrax h2
    rw [hm.mem] at hmem
    cases hvalue : env.value with
    | typed widetag value types =>
      rw [hvalue] at hrep h hother
      obtain ⟨f, hexec, hf⟩ := hi m₁.cpu widetag (by
        rw [hrax, hmem]
        exact hrep.2.1)
      refine Goes.check hexec ?_
      cases hp : p widetag with
      | true => exact Goes.noJump (hf.trans (by rw [hp]; rfl)) (h hp _ hev)
      | false =>
        obtain ⟨rfl, rfl⟩ := hother hp
        rw [← hev]
        exact goes_leave (hf.trans (by rw [hp]; rfl)) (hout _ (by decide) (by decide))
    | _ =>
      rw [hvalue] at htag
      exact absurd (htag.mp h2) (by simp [Object.widetag])
  · rw [hm.rax] at h2
    cases hw : env.value.widetag with
    | none => rfl
    | some w => exact absurd (htag.mpr (by rw [hw]; rfl)) h2

theorem goes_p2TestWidetagBit (bit : ℕ)
    (h : env.value.widetag.any (·.hasBit bit) = true → ∀ m' : Machine E, m'.events = m.events →
      Goes env program code m' l events)
    (hother : env.value.widetag.any (·.hasBit bit) = false → l = .ifFalse ∧ events = m.events) :
    Goes env program (p2TestWidetagBit env bit .ifFalse ++ code) m l events := by
  rw [p2TestWidetagBit, List.append_assoc]
  refine goes_testWidetag henv hm hout (fun cpu widetag hword => ⟨_, rfl, ?_⟩) h hother
  rw [hword]
  exact (Bool.not_not _).symm

theorem goes_p2TestWidetag (widetag : Widetag)
    (h : env.value.widetag.any (· == widetag) = true → ∀ m' : Machine E, m'.events = m.events →
      Goes env program code m' l events)
    (hother : env.value.widetag.any (· == widetag) = false → l = .ifFalse ∧ events = m.events) :
    Goes env program (p2TestWidetag env widetag .ifFalse ++ code) m l events := by
  rw [p2TestWidetag, List.append_assoc]
  refine goes_testWidetag henv hm hout (fun cpu widetag' hword => ⟨_, rfl, ?_⟩) h hother
  rw [hword]
  exact congrArg (!·) (ofNat_code_beq widetag' widetag)

end Widetag

/-! ## Labels -/

theorem outside_iff : Outside program ↔
    ∀ l : Label, l ≠ .exit → l ≠ .fullCall → Item.label l ∉ program := by
  unfold Outside
  simp only [after_eq_none_iff]

@[simp] theorem outside_nil : Outside ([] : Code) := fun _ _ _ => rfl

@[simp] theorem outside_instr (i : Instr) : Outside (.instr i :: code) ↔ Outside code := Iff.rfl

@[simp] theorem outside_exit : Outside (.label .exit :: code) ↔ Outside code := by
  simp only [outside_iff, List.mem_cons, Item.label.injEq, not_or]
  exact ⟨fun h l hl hl' => (h l hl hl').2, fun h l hl hl' => ⟨hl, h l hl hl'⟩⟩

@[simp] theorem outside_fullCall : Outside (.label .fullCall :: code) ↔ Outside code := by
  simp only [outside_iff, List.mem_cons, Item.label.injEq, not_or]
  exact ⟨fun h l hl hl' => (h l hl hl').2, fun h l hl hl' => ⟨hl', h l hl hl'⟩⟩

@[simp] theorem outside_append {code' : Code} :
    Outside (code ++ code') ↔ Outside code ∧ Outside code' := by
  simp only [outside_iff, List.mem_append, not_or]
  exact ⟨fun h => ⟨fun l hl hl' => (h l hl hl').1, fun l hl hl' => (h l hl hl').2⟩,
    fun h l hl hl' => ⟨h.1 l hl hl', h.2 l hl hl'⟩⟩

@[simp] theorem outside_jump (test : Test) (l : Label) :
    Outside (jump test l :: code) ↔ Outside code := Iff.rfl

@[simp] theorem outside_check (i : CheckInstr) : Outside (check i :: code) ↔ Outside code := Iff.rfl

@[simp] theorem outside_whenTrue (test : Test) : Outside (labels.whenTrue test) := by
  unfold Labels.whenTrue
  split_ifs <;> simp

@[simp] theorem outside_whenFalse (test : Test) : Outside (labels.whenFalse test) := by
  unfold Labels.whenFalse
  split_ifs <;> simp

theorem outside_code (env : Env E) (labels : Labels) (predicate : Predicate) (type : ArgType)
    (register : Option Reg64) (convention : Convention) :
    Outside (predicate.code env type register labels convention).code := by
  cases predicate with
  | fixnump =>
    unfold Predicate.code p2TestFixnump Segments.code
    dsimp only
    split_ifs
    · simp
    · cases register <;> simp [testTag]
  | symbolp =>
    unfold Predicate.code p2TestSymbolp Segments.code
    dsimp only
    split_ifs <;> simp [compareLowtag, compareNil]
  | plusp =>
    unfold Predicate.code p2TestPlusp Segments.code
    dsimp only
    split_ifs <;> simp [testTag]
  | zerop =>
    unfold Predicate.code p2TestZerop Segments.code
    dsimp only
    split_ifs
    · simp
    · cases convention <;> simp [callZerop, compareNil]
  | _ =>
    simp [Predicate.code, Segments.code, p2TestConsp, p2TestListp, p2TestAtom, p2TestIntegerp,
      p2TestNumberp, p2TestFunctionp, p2TestStringp, p2TestVectorp, p2TestSimpleVectorP,
      testFixnumOr, testBit, p2TestWidetag, p2TestWidetagBit, testTypedObject, compareLowtag,
      compareNil, testTag]

@[simp] theorem after_whenTrue_append (l : Label) (test : Test) :
    after l (labels.whenTrue test ++ code) = after l code := by
  unfold Labels.whenTrue
  split_ifs <;> rfl

@[simp] theorem after_whenFalse_append (l : Label) (test : Test) :
    after l (labels.whenFalse test ++ code) = after l code := by
  unfold Labels.whenFalse
  split_ifs <;> rfl

/-! ## Words -/

section Words

variable {nilWord v : Word} {offset : ℤ} {s : X86.State} (hnil : nilWord.toNat % 8 = 1)
  (h : Represents nilWord offset s.mem v o)

include hnil h

theorem listp_iff : v.toNat % 8 = 1 ↔ (o == .nil || o.typep .cons) = true := by
  have hcons := h.cons_iff
  by_cases hv : v = nilWord
  · have ho : o = .nil := by
      have hsymbol := (h.symbol_iff hnil).mp (.inl hv)
      cases o with
      | nil => rfl
      | symbol =>
        have : v.toNat % 8 = 7 := h
        rw [hv] at this
        omega
      | _ => cases hsymbol
    rw [hv, ho]
    simp [hnil]
  · have ho : o ≠ .nil := by
      rintro rfl
      exact hv h
    simp only [Bool.or_eq_true, beq_iff_eq, ho, false_or, ← hcons]
    exact (and_iff_right hv).symm

theorem word_eq_zero_iff : v = 0 ↔ o = .fixnum 0 := by
  have hfix := h.fixnump_eq hnil
  constructor
  · rintro rfl
    cases o with
    | fixnum n =>
      obtain ⟨hlo, hhi, hv⟩ := h
      have hn := toInt_fixnumize hlo hhi
      rw [← hv] at hn
      have : n = 0 := by
        have : (0 : Word).toInt = 0 := rfl
        omega
      rw [this]
    | _ => cases hfix
  · rintro rfl
    exact h.2.2

omit hnil in
theorem toInt_of_fixnum {n : ℤ} (ho : o = .fixnum n) : v.toInt = n * 4 := by
  subst ho
  obtain ⟨hlo, hhi, rfl⟩ := h
  exact toInt_fixnumize hlo hhi

end Words

theorem Env.Sound.fixnump_eq (henv : env.Sound) : fixnump env.word = env.value.typep .fixnum :=
  henv.represents.fixnump_eq henv.nil

/-! ## The handlers -/

/-- The code of a test leads to the label, with the argument evaluated once. -/
def Right (env : Env E) (segments : Segments) (m : Machine E) (l : Label) : Prop :=
  Goes env segments.code segments.code m l (m.events ++ env.events)

theorem goes_lowtag (hout : Outside program) {lowtag : BitVec 8} {b : Bool}
    (hb : decide ((m.cpu.regs .rax).toNat % 8 = lowtag.toNat) = b)
    (hrest : ∀ m' : Machine E, Goes env program code m' .next m'.events) :
    Goes env program (compareLowtag lowtag ++ (labels.whenTrue (.cond .e) ++
      (labels.whenFalse (.cond .ne) ++ code))) m (labels.destination (some b)) m.events := by
  refine goes_compareLowtag fun m' hev he hne => ?_
  rw [hb] at he hne
  rw [← hev]
  exact goes_dispatch hout he hne (hrest m')

theorem goes_tag (hout : Outside program) {reg : Reg64} {b : Bool}
    (hb : fixnump (m.cpu.regs reg) = b)
    (hrest : ∀ m' : Machine E, Goes env program code m' .next m'.events) :
    Goes env program (testTag reg :: (labels.whenTrue (.cond .e) ++
      (labels.whenFalse (.cond .ne) ++ code))) m (labels.destination (some b)) m.events := by
  refine goes_testTag fun m' hm he hne => ?_
  rw [hb] at he hne
  rw [← hm.events]
  exact goes_dispatch hout he hne (hrest m')

section Handlers

variable (henv : env.Sound)

include henv

theorem right_p2TestListp :
    Right env (p2TestListp labels) m
      (labels.destination (some (env.value == .nil || env.value.typep .cons))) := by
  have hout : Outside (p2TestListp labels).code :=
    outside_code env labels .listp .unknown none .fast
  unfold Right
  generalize hprogram : (p2TestListp labels).code = program at hout
  nth_rewrite 2 [← hprogram]
  simp only [Segments.code, p2TestListp, List.cons_append, List.append_assoc, List.nil_append]
  refine goes_evaluate fun m₁ h₁ hev => ?_
  rw [← hev]
  refine goes_lowtag hout ?_ fun m' => Goes.label hout.goes_next
  rw [h₁.rax, Bool.eq_iff_iff, decide_eq_true_iff]
  exact listp_iff henv.nil henv.represents

theorem right_p2TestConsp :
    Right env (p2TestConsp env labels) m
      (labels.destination (some (env.value.typep .cons))) := by
  have hout : Outside (p2TestConsp env labels).code :=
    outside_code env labels .consp .unknown none .fast
  have hexit : after .exit (p2TestConsp env labels).code = some [jump .t .next] := by
    simp [Segments.code, p2TestConsp, after, compareNil, check, jump, compareLowtag]
  unfold Right
  generalize hprogram : (p2TestConsp env labels).code = program at hout hexit
  nth_rewrite 2 [← hprogram]
  simp only [Segments.code, p2TestConsp, List.cons_append, List.append_assoc, List.nil_append]
  have hcons := henv.represents.cons_iff
  refine goes_evaluate fun m₁ h₁ hev => ?_
  rw [← hev]
  refine goes_compareNil fun m₂ h₂ he _ => ?_
  rw [← h₂.events]
  rw [h₁.rax] at he
  by_cases hnil : env.word = env.nilWord
  · -- `NIL` is no cons
    have hfalse : env.value.typep .cons = false := by
      rw [← Bool.not_eq_true, ← hcons]
      exact fun h => h.1 hnil
    rw [hfalse]
    have he := he.trans (decide_eq_true hnil)
    cases hlabel : labels.ifFalse with
    | true =>
      rw [Labels.destination, hlabel]
      exact goes_leave he (hout _ (by decide) (by decide))
    | false =>
      rw [Labels.destination, hlabel]
      exact Goes.jump he hexit hout.goes_next
  · refine Goes.noJump (he.trans (decide_eq_false hnil)) ?_
    refine goes_lowtag hout ?_ fun m' => Goes.label hout.goes_next
    rw [(h₁.sameButFlags h₂).rax, Bool.eq_iff_iff, decide_eq_true_iff, ← hcons]
    exact (and_iff_right hnil).symm

theorem right_p2TestAtom :
    Right env (p2TestAtom env) m
      (Labels.destination ⟨false, true⟩ (some (!env.value.typep .cons))) := by
  have hout : Outside (p2TestAtom env).code :=
    outside_code env ⟨false, true⟩ .atom .unknown none .fast
  have hexit : after .exit (p2TestAtom env).code = some [jump .t .next] := by
    simp [Segments.code, p2TestAtom, after, compareNil, check, jump, compareLowtag]
  unfold Right
  generalize hprogram : (p2TestAtom env).code = program at hout hexit
  nth_rewrite 2 [← hprogram]
  simp only [Segments.code, p2TestAtom, List.cons_append, List.append_assoc, List.nil_append]
  have hcons := henv.represents.cons_iff
  refine goes_evaluate fun m₁ h₁ hev => ?_
  rw [← hev]
  refine goes_compareNil fun m₂ h₂ he _ => ?_
  rw [← h₂.events]
  rw [h₁.rax] at he
  by_cases hnil : env.word = env.nilWord
  · have hfalse : env.value.typep .cons = false := by
      rw [← Bool.not_eq_true, ← hcons]
      exact fun h => h.1 hnil
    rw [hfalse]
    exact Goes.jump (he.trans (decide_eq_true hnil)) hexit hout.goes_next
  · refine Goes.noJump (he.trans (decide_eq_false hnil)) ?_
    refine goes_compareLowtag fun m₃ hev₃ he₃ _ => ?_
    rw [(h₁.sameButFlags h₂).rax] at he₃
    rw [← hev₃]
    have htypep : decide (env.word.toNat % 8 = 1) = env.value.typep .cons := by
      rw [Bool.eq_iff_iff, decide_eq_true_iff, ← hcons]
      exact (and_iff_right hnil).symm
    have he₃ := he₃.trans htypep
    cases hvalue : env.value.typep .cons with
    | true => exact goes_leave (he₃.trans hvalue) (hout _ (by decide) (by decide))
    | false => exact Goes.noJump (he₃.trans hvalue) (Goes.label hout.goes_next)

/-- The type `SYMBOL` decides the test, and the argument is evaluated for effect. -/
theorem right_p2TestSymbolp (type : ArgType) (htype : type.Has env.value) :
    Right env (p2TestSymbolp env type labels) m
      (labels.destination (some (env.value.typep .symbol))) := by
  have hout : Outside (p2TestSymbolp env type labels).code :=
    outside_code env labels .symbolp type none .fast
  unfold Right
  by_cases htypep : type = .symbol
  · subst htypep
    have htrue : env.value.typep .symbol = true := htype
    generalize hprogram : (p2TestSymbolp env .symbol labels).code = program at hout
    nth_rewrite 2 [← hprogram]
    simp only [Segments.code, p2TestSymbolp, if_true, List.cons_append]
    rw [htrue]
    exact Goes.next rfl (goes_whenTrue_t hout hout.goes_next)
  · have hexit : after .exit (p2TestSymbolp env type labels).code = some [jump .t .next] := by
      simp [Segments.code, p2TestSymbolp, htypep, after, compareNil, check, jump, compareLowtag]
    generalize hprogram : (p2TestSymbolp env type labels).code = program at hout hexit
    nth_rewrite 2 [← hprogram]
    simp only [Segments.code, p2TestSymbolp, htypep, if_false, List.cons_append, List.append_assoc,
      List.nil_append]
    have hsymbol := henv.represents.symbol_iff henv.nil
    refine goes_evaluate fun m₁ h₁ hev => ?_
    rw [← hev]
    refine goes_compareNil fun m₂ h₂ he _ => ?_
    rw [← h₂.events]
    rw [h₁.rax] at he
    by_cases hnil : env.word = env.nilWord
    · rw [hsymbol.mp (.inl hnil)]
      have he := he.trans (decide_eq_true hnil)
      cases hlabel : labels.ifTrue with
      | true =>
        rw [Labels.destination, hlabel]
        exact goes_leave he (hout _ (by decide) (by decide))
      | false =>
        rw [Labels.destination, hlabel]
        exact Goes.jump he hexit hout.goes_next
    · refine Goes.noJump (he.trans (decide_eq_false hnil)) ?_
      refine goes_lowtag hout ?_ fun m' => Goes.label hout.goes_next
      rw [(h₁.sameButFlags h₂).rax, Bool.eq_iff_iff, decide_eq_true_iff, ← hsymbol]
      exact (or_iff_right hnil).symm

theorem right_testBit (bit : ℕ) (hout : Outside (testBit env bit).code) :
    Right env (testBit env bit) m
      (Labels.destination ⟨false, true⟩ (some (env.value.widetag.any (·.hasBit bit)))) := by
  unfold Right
  generalize hprogram : (testBit env bit).code = program at hout
  nth_rewrite 2 [← hprogram]
  simp only [Segments.code, testBit, List.cons_append]
  refine goes_evaluate fun m₁ h₁ hev => ?_
  rw [← hev]
  refine goes_p2TestWidetagBit henv h₁ hout bit (fun h m₂ hev₂ => ?_) fun h => ?_
  · rw [h, ← hev₂]
    exact hout.goes_next
  · rw [h]
    exact ⟨rfl, rfl⟩

theorem right_p2TestFunctionp :
    Right env (p2TestFunctionp env) m
      (Labels.destination ⟨false, true⟩ (some (env.value.typep .function))) := by
  have h : env.value.typep .function = env.value.widetag.any (·.hasBit widetagFunctionBit) := by
    simp only [Object.typep, hasBit_function]
  rw [h]
  exact right_testBit henv _ (outside_code env ⟨false, true⟩ .functionp .unknown none .fast)

theorem right_p2TestStringp :
    Right env (p2TestStringp env) m
      (Labels.destination ⟨false, true⟩ (some (env.value.typep .string))) := by
  have h : env.value.typep .string = env.value.widetag.any (·.hasBit widetagStringBit) := by
    simp only [Object.typep, hasBit_string]
  rw [h]
  exact right_testBit henv _ (outside_code env ⟨false, true⟩ .stringp .unknown none .fast)

theorem right_p2TestVectorp :
    Right env (p2TestVectorp env) m
      (Labels.destination ⟨false, true⟩ (some (env.value.typep .vector))) := by
  have h : env.value.typep .vector = env.value.widetag.any (·.hasBit widetagVectorBit) := by
    simp only [Object.typep, hasBit_vector]
  rw [h]
  exact right_testBit henv _ (outside_code env ⟨false, true⟩ .vectorp .unknown none .fast)

theorem right_p2TestSimpleVectorP :
    Right env (p2TestSimpleVectorP env) m
      (Labels.destination ⟨false, true⟩ (some (env.value.typep .simpleVector))) := by
  have hout : Outside (p2TestSimpleVectorP env).code :=
    outside_code env ⟨false, true⟩ .simpleVectorP .unknown none .fast
  have htypep : env.value.typep .simpleVector = env.value.widetag.any (· == .simpleVector) := by
    cases hw : env.value.widetag <;> simp [Object.typep, hw]
  unfold Right
  generalize hprogram : (p2TestSimpleVectorP env).code = program at hout
  nth_rewrite 2 [← hprogram]
  simp only [Segments.code, p2TestSimpleVectorP, List.cons_append]
  rw [htypep]
  refine goes_evaluate fun m₁ h₁ hev => ?_
  rw [← hev]
  refine goes_p2TestWidetag henv h₁ hout .simpleVector (fun h m₂ hev₂ => ?_) fun h => ?_
  · rw [h, ← hev₂]
    exact hout.goes_next
  · rw [h]
    exact ⟨rfl, rfl⟩

/-- The handlers that are true of the fixnums: `b` is the answer of the test `code` for the other
objects. -/
theorem right_testFixnumOr {code : Code} {b : Bool} (hout : Outside (testFixnumOr code).code)
    (hexit : after .exit code = none)
    (hcode : ∀ program m, Outside program → Evaluated env m →
      (∀ m' : Machine E, m'.events = m.events →
        Goes env program (.label .exit :: jump .t .next :: []) m' .next m.events) →
      Goes env program (code ++ .label .exit :: jump .t .next :: []) m
        (Labels.destination ⟨false, true⟩ (some b)) m.events) :
    Right env (testFixnumOr code) m
      (Labels.destination ⟨false, true⟩ (some (env.value.typep .fixnum || b))) := by
  have hend : after .exit (testFixnumOr code).code = some [jump .t .next] := by
    have hlabel := after_append_of_none hexit [.label .exit, jump .t .next]
    simpa [Segments.code, testFixnumOr, after, testTag, check, jump] using hlabel
  unfold Right
  generalize hprogram : (testFixnumOr code).code = program at hout hend
  nth_rewrite 2 [← hprogram]
  simp only [Segments.code, testFixnumOr, List.cons_append, List.append_assoc, List.nil_append]
  refine goes_evaluate fun m₁ h₁ hev => ?_
  rw [← hev]
  refine goes_testTag fun m₂ h₂ he _ => ?_
  rw [← h₂.events]
  rw [h₁.rax, henv.fixnump_eq] at he
  cases hfix : env.value.typep .fixnum with
  | true => exact Goes.jump (he.trans hfix) hend hout.goes_next
  | false =>
    refine Goes.noJump (he.trans hfix) ?_
    refine hcode program m₂ hout (h₁.sameButFlags h₂) fun m₃ hev₃ => ?_
    rw [← hev₃]
    exact Goes.label hout.goes_next

theorem right_p2TestNumberp :
    Right env (p2TestNumberp env) m
      (Labels.destination ⟨false, true⟩ (some (env.value.typep .number))) := by
  have h : env.value.typep .number =
      (env.value.typep .fixnum || env.value.widetag.any (·.hasBit widetagNumberBit)) := by
    simp only [Object.typep, hasBit_number]
    cases env.value with
    | typed widetag value types => cases widetag <;> rfl
    | _ => rfl
  rw [h]
  refine right_testFixnumOr henv
    (outside_code env ⟨false, true⟩ .numberp .unknown none .fast) rfl
    fun program m hout hm hend => ?_
  refine goes_p2TestWidetagBit henv hm hout _ (fun hbit m' hev => ?_) fun hbit => ?_
  · rw [hbit]
    exact hend m' hev
  · rw [hbit]
    exact ⟨rfl, rfl⟩

theorem right_p2TestIntegerp :
    Right env (p2TestIntegerp env) m
      (Labels.destination ⟨false, true⟩ (some (env.value.typep .integer))) := by
  have h : env.value.typep .integer =
      (env.value.typep .fixnum || env.value.widetag.any (· == .bignum)) := by
    cases env.value with
    | typed widetag value types => cases widetag <;> rfl
    | _ => rfl
  rw [h]
  refine right_testFixnumOr henv
    (outside_code env ⟨false, true⟩ .integerp .unknown none .fast) rfl
    fun program m hout hm hend => ?_
  refine goes_p2TestWidetag henv hm hout _ (fun hbit m' hev => ?_) fun hbit => ?_
  · rw [hbit]
    exact hend m' hev
  · rw [hbit]
    exact ⟨rfl, rfl⟩

theorem exists_fixnum {type : ArgType} (htype : type.Has env.value)
    (hfixnum : type.fixnumTypeP = true) :
    ∃ n, env.value = .fixnum n ∧ ∀ low high, type = .integer (some low) (some high) →
      low ≤ n ∧ n ≤ high := by
  obtain ⟨low, high, rfl⟩ : ∃ low high, type = .integer (some low) (some high) := by
    unfold ArgType.fixnumTypeP at hfixnum
    split at hfixnum
    · exact ⟨_, _, rfl⟩
    · cases hfixnum
  obtain ⟨n, hn, hlow, hhigh⟩ := htype
  have hlow := hlow low rfl
  have hhigh := hhigh high rfl
  have hbounds : ∀ low' high', ArgType.integer (some low) (some high) =
      .integer (some low') (some high') → low' ≤ n ∧ n ≤ high' := by
    rintro low' high' ⟨⟩
    exact ⟨hlow, hhigh⟩
  simp only [ArgType.fixnumTypeP, fixnumBound, Bool.and_eq_true, decide_eq_true_eq] at hfixnum
  have hrep := henv.represents
  cases hvalue : env.value with
  | fixnum k =>
    rw [hvalue] at hn
    cases hn
    exact ⟨_, rfl, hbounds⟩
  | typed widetag value types =>
    rw [hvalue] at hn hrep
    cases widetag with
    | bignum =>
      cases hn
      have := hrep.2.2 rfl
      omega
    | _ => cases hn
  | _ =>
    rw [hvalue] at hn
    cases hn

omit henv in
theorem exists_fixnum_of_typep (h : env.value.typep .fixnum = true) :
    ∃ n, env.value = .fixnum n := by
  cases hvalue : env.value with
  | fixnum n => exact ⟨n, rfl⟩
  | _ =>
    rw [hvalue] at h
    cases h

omit henv in
theorem goes_call {rest : Code} (hout : Outside program) {i : Instr} {arg : Reg64}
    {result : Option Bool} {word : Bool → Word}
    (hi : exec env i m = callResult env m arg result word) (hm : m.cpu.regs arg = env.word)
    (h : ∀ b, Goes env program rest (m.withCpu (env.called.set .rax (word b)))
      (labels.destination (some b)) m.events) :
    Goes env program (.instr i :: rest) m (labels.destination result) m.events := by
  cases result with
  | none => exact ⟨m, runs_leave (hi.trans (if_pos hm)) (hout .error (by decide) (by decide)), rfl⟩
  | some b => exact (h b).next (hi.trans (if_pos hm))

omit henv in
/-- The test of the boolean that a kernel function leaves in `al`. -/
theorem goes_callPlusp {rest : Code} (hout : Outside program) (hm : m.cpu.regs .rdi = env.word)
    (hrest : ∀ m' : Machine E, Goes env program rest m' .next m'.events) :
    Goes env program (.instr (.callPlusp .rdi) :: .instr (.testb .rax .rax) ::
      (labels.whenTrue (.cond .nz) ++ (labels.whenFalse (.cond .z) ++ rest))) m
      (labels.destination (kernelPlusp env.comparisons env.value)) m.events := by
  refine goes_call hout rfl hm fun b => ?_
  refine goes_testb fun m' hm' hz hnz => ?_
  have hal : ((env.called.set .rax (setLowByte (env.called.regs .rax) (if b then 1 else 0))).regs
      .rax).truncate 8 = (if b then 1 else 0 : BitVec 8) := by
    simp only [X86.State.set, Function.update_self, truncate_setLowByte]
  rw [withCpu_cpu, hal] at hz hnz
  have hzero : decide ((if b then 1 else 0 : BitVec 8) = 0) = !b := by
    cases b <;> rfl
  rw [hzero] at hz hnz
  rw [← withCpu_events m (env.called.set .rax _), ← hm'.events]
  exact goes_dispatch hout (hnz.trans (Bool.not_not b)) hz (hrest m')

omit henv in
theorem truncate_fixnumize_bit {n : ℤ} (hlo : 0 ≤ n) (hhi : n ≤ 1) :
    decide ((fixnumize n).truncate 8 = (0 : BitVec 8)) = !decide (0 < n) := by
  obtain rfl | rfl : n = 0 ∨ n = 1 := by omega
  · rfl
  · rfl

theorem goes_signTest (hout : Outside program) (hm : Evaluated env m) {n : ℤ}
    (hn : env.value = .fixnum n)
    (hrest : ∀ m' : Machine E, Goes env program code m' .next m'.events) :
    Goes env program (check (.testq .rax .rax) :: (labels.whenTrue (.cond .g) ++
      (labels.whenFalse (.cond .ng) ++ code))) m
      (labels.destination (kernelPlusp env.comparisons env.value)) m.events := by
  obtain ⟨-, -, hg, hng⟩ := holds_testFlags64 env.word
  have hsign : decide (0 < env.word.toInt) = decide (0 < n) := by
    rw [toInt_of_fixnum henv.represents hn, decide_eq_decide]
    omega
  rw [hsign] at hg hng
  refine goes_testq fun m' h' hflags => ?_
  rw [hm.rax] at hflags
  rw [← hflags] at hg hng
  rw [← h'.events, hn]
  exact goes_dispatch hout hg hng (hrest m')

theorem right_p2TestPlusp (type : ArgType) (htype : type.Has env.value) :
    Right env (p2TestPlusp type labels) m
      (labels.destination (kernelPlusp env.comparisons env.value)) := by
  have hout : Outside (p2TestPlusp type labels).code :=
    outside_code env labels .plusp type none .fast
  unfold Right
  by_cases hbit : type = .integer (some 0) (some 1)
  · -- the low byte of zero and of one
    obtain ⟨n, hn, hbounds⟩ := exists_fixnum henv htype (by rw [hbit]; decide)
    obtain ⟨hlo, hhi⟩ := hbounds 0 1 hbit
    have hword : env.word = fixnumize n := by
      have hrep := henv.represents
      rw [hn] at hrep
      exact hrep.2.2
    have hplusp : kernelPlusp env.comparisons env.value = some (decide (0 < n)) := by
      rw [hn]
      rfl
    generalize hprogram : (p2TestPlusp type labels).code = program at hout
    nth_rewrite 2 [← hprogram]
    simp only [Segments.code, p2TestPlusp, hbit, if_true, List.cons_append, List.append_assoc]
    refine goes_evaluate fun m₁ h₁ hev => ?_
    rw [← hev]
    refine goes_testb fun m₂ h₂ hz hnz => ?_
    rw [h₁.rax, hword, truncate_fixnumize_bit hlo hhi] at hz hnz
    rw [← h₂.events, hplusp]
    exact goes_dispatch hout (hnz.trans (Bool.not_not _)) hz hout.goes_next
  · by_cases hfixnum : type.fixnumTypeP = true
    · obtain ⟨n, hn, -⟩ := exists_fixnum henv htype hfixnum
      generalize hprogram : (p2TestPlusp type labels).code = program at hout
      nth_rewrite 2 [← hprogram]
      simp only [Segments.code, p2TestPlusp, hbit, hfixnum, if_false, if_true, List.nil_append,
        List.cons_append, List.append_assoc]
      refine goes_evaluate fun m₁ h₁ hev => ?_
      rw [← hev]
      exact goes_signTest henv hout h₁ hn fun m' => hout.goes_next
    · have hexit : ∃ rest, after .exit (p2TestPlusp type labels).code =
          some (jump .t .next :: rest) := by
        simp [Segments.code, p2TestPlusp, hbit, hfixnum, after, testTag, check, jump]
      have hfull : after .fullCall (p2TestPlusp type labels).code =
          some (.instr (.mov .rax .rdi) :: .instr (.callPlusp .rdi) ::
            .instr (.testb .rax .rax) :: (labels.whenTrue (.cond .nz) ++
              (labels.whenFalse (.cond .z) ++ [jump .t .exit]))) := by
        simp [Segments.code, p2TestPlusp, hbit, hfixnum, after, testTag, check, jump]
      obtain ⟨rest, hexit⟩ := hexit
      generalize hprogram : (p2TestPlusp type labels).code = program at hout hexit hfull
      nth_rewrite 2 [← hprogram]
      simp only [Segments.code, p2TestPlusp, hbit, hfixnum, if_false, Bool.false_eq_true,
        List.nil_append, List.cons_append, List.append_assoc]
      refine goes_evaluate fun m₁ h₁ hev => ?_
      rw [← hev]
      refine goes_testTag fun m₂ h₂ _ hnz => ?_
      rw [← h₂.events]
      rw [h₁.rax, henv.fixnump_eq] at hnz
      have h₂ := h₁.sameButFlags h₂
      by_cases htypep : env.value.typep .fixnum = true
      · obtain ⟨n, hn⟩ := exists_fixnum_of_typep htypep
        refine Goes.noJump (hnz.trans (by rw [htypep]; rfl)) ?_
        exact goes_signTest henv hout h₂ hn fun m' => Goes.label hout.goes_next
      · -- the full call
        refine Goes.jump (hnz.trans (by rw [Bool.eq_false_iff.mpr htypep]; rfl)) hfull ?_
        refine Goes.next rfl ?_
        generalize hmov : m₂.withCpu _ = m₃
        have hev₃ : m₃.events = m₂.events := by
          rw [← hmov, withCpu_events]
        have hrdi : m₃.cpu.regs .rdi = env.word := by
          rw [← hmov, ← h₂.rax]
          simp [X86.State.set]
        rw [← hev₃]
        exact goes_callPlusp hout hrdi fun m' => Goes.jump rfl hexit hout.goes_next

/-- The comparison of the returned word with `NIL`, after which the jumps follow. -/
theorem goes_callZerop {rest : Code} (hout : Outside program) {arg : Reg64}
    (hm : m.cpu.regs arg = env.word)
    (hrest : ∀ m' : Machine E, Goes env program rest m' .next m'.events) :
    Goes env program (.instr (.callZerop arg) :: compareNil env.nilWord ::
      (labels.whenTrue (.cond .ne) ++ (labels.whenFalse (.cond .e) ++ rest))) m
      (labels.destination (kernelZerop env.comparisons env.value)) m.events := by
  refine goes_call hout rfl hm fun b => ?_
  refine goes_compareNil fun m' hm' he hne => ?_
  have hrax : decide ((env.called.set .rax (if b then env.tWord else env.nilWord)).regs .rax =
      env.nilWord) = !b := by
    simp only [X86.State.set, Function.update_self]
    cases b with
    | true => exact decide_eq_false henv.t
    | false => exact decide_eq_true rfl
  rw [withCpu_cpu, hrax] at he hne
  rw [← withCpu_events m (env.called.set .rax _), ← hm'.events]
  exact goes_dispatch hout (hne.trans (Bool.not_not b)) he (hrest m')

theorem goes_callConvention {rest : Code} (hout : Outside program) (convention : Convention)
    (hm : m.cpu.regs .rax = env.word)
    (hrest : ∀ m' : Machine E, Goes env program rest m' .next m'.events) :
    Goes env program (callZerop env convention ++ compareNil env.nilWord ::
      (labels.whenTrue (.cond .ne) ++ (labels.whenFalse (.cond .e) ++ rest))) m
      (labels.destination (kernelZerop env.comparisons env.value)) m.events := by
  cases convention with
  | fast =>
    refine Goes.next rfl (goes_callZerop henv hout ?_ hrest)
    simpa [X86.State.set] using hm
  | thread threadRegister =>
    refine Goes.next rfl (Goes.check rfl (Goes.next rfl (goes_callZerop henv hout ?_ hrest)))
    simpa [X86.State.set] using hm
  | currentThread =>
    refine Goes.next rfl (Goes.check rfl (goes_callZerop henv hout ?_ hrest))
    simpa [X86.State.set] using hm

theorem kernelZerop_of_integer (h : env.value.typep .integer = true) :
    kernelZerop env.comparisons env.value = some (decide (env.word = 0)) := by
  have hzero := word_eq_zero_iff henv.nil henv.represents
  cases hvalue : env.value with
  | fixnum n =>
    rw [hvalue] at hzero
    simp only [kernelZerop, hzero, Object.fixnum.injEq]
  | typed widetag value types =>
    rw [hvalue] at hzero h
    cases widetag with
    | bignum =>
      have hne : ¬env.word = 0 := fun h0 => absurd (hzero.mp h0) (by simp)
      rw [kernelZerop, decide_eq_false hne]
    | _ => cases h
  | _ =>
    rw [hvalue] at h
    cases h

omit henv in
theorem typep_integer_of_subtypepInteger {type : ArgType} (htype : type.Has env.value)
    (h : type.subtypepInteger = true) : env.value.typep .integer = true := by
  cases type with
  | integer low high =>
    obtain ⟨n, hn, -⟩ := htype
    simp [Object.typep, hn]
  | other subtypepInteger => exact htype h
  | _ => cases h

theorem right_p2TestZerop (type : ArgType) (htype : type.Has env.value)
    (convention : Convention) :
    Right env (p2TestZerop env type labels convention) m
      (labels.destination (kernelZerop env.comparisons env.value)) := by
  have hout : Outside (p2TestZerop env type labels convention).code :=
    outside_code env labels .zerop type none convention
  obtain ⟨hz, hnz, -, -⟩ := holds_testFlags64 env.word
  unfold Right
  by_cases hinteger : type.subtypepInteger = true
  · generalize hprogram : (p2TestZerop env type labels convention).code = program at hout
    nth_rewrite 2 [← hprogram]
    simp only [Segments.code, p2TestZerop, hinteger, if_true, List.cons_append, List.append_assoc]
    refine goes_evaluate fun m₁ h₁ hev => ?_
    rw [← hev]
    refine goes_testq fun m₂ h₂ hflags => ?_
    rw [h₁.rax] at hflags
    rw [← hflags] at hz hnz
    rw [← h₂.events,
      kernelZerop_of_integer henv (typep_integer_of_subtypepInteger htype hinteger)]
    exact goes_dispatch hout hz hnz hout.goes_next
  · have hexit : after .exit (p2TestZerop env type labels convention).code =
        some [jump .t .next] := by
      cases convention <;>
        simp [Segments.code, p2TestZerop, hinteger, after, check, jump, callZerop, compareNil]
    generalize hprogram : (p2TestZerop env type labels convention).code = program at hout hexit
    nth_rewrite 2 [← hprogram]
    simp only [Segments.code, p2TestZerop, hinteger, if_false, Bool.false_eq_true,
      List.cons_append, List.append_assoc, List.nil_append]
    refine goes_evaluate fun m₁ h₁ hev => ?_
    rw [← hev]
    refine goes_testq fun m₂ h₂ hflags => ?_
    rw [h₁.rax] at hflags
    rw [← hflags] at hz
    rw [← h₂.events]
    by_cases hword : env.word = 0
    · -- zero goes to the true label or to the exit
      have hvalue := (word_eq_zero_iff henv.nil henv.represents).mp hword
      have hz := hz.trans (decide_eq_true hword)
      rw [hvalue]
      have htrue : kernelZerop env.comparisons (.fixnum 0) = some true := rfl
      rw [htrue]
      cases hlabel : labels.ifTrue with
      | true =>
        rw [Labels.destination, Labels.whenTrue, hlabel]
        exact goes_leave hz (hout _ (by decide) (by decide))
      | false =>
        rw [Labels.destination, Labels.whenTrue, hlabel]
        exact Goes.jump hz hexit hout.goes_next
    · have hz := hz.trans (decide_eq_false hword)
      refine goes_whenTrue_of_not hz (Goes.noJump hz ?_)
      exact goes_callConvention henv hout convention (h₁.sameButFlags h₂).rax fun m' =>
        Goes.label hout.goes_next

theorem goes_p2TestFixnump {type : ArgType} (htype : type.Has env.value) (labels : Labels)
    (register : Option Reg64)
    (hregister : ∀ reg, register = some reg → m.cpu.regs reg = env.word) :
    Goes env (p2TestFixnump type register labels).code (p2TestFixnump type register labels).code m
      (labels.destination (some (env.value.typep .fixnum)))
      (m.events ++ if type.fixnumTypeP ∨ register.isSome then [] else env.events) := by
  have hout : Outside (p2TestFixnump type register labels).code :=
    outside_code env labels .fixnump type register .fast
  by_cases hfixnum : type.fixnumTypeP = true
  · obtain ⟨n, hn, -⟩ := exists_fixnum henv htype hfixnum
    generalize hprogram : (p2TestFixnump type register labels).code = program at hout
    nth_rewrite 2 [← hprogram]
    simp only [Segments.code, p2TestFixnump, hfixnum, if_true, true_or, List.append_nil, hn]
    exact goes_whenTrue_t hout hout.goes_next
  · cases register with
    | some reg =>
      generalize hprogram : (p2TestFixnump type (some reg) labels).code = program at hout
      nth_rewrite 2 [← hprogram]
      simp only [Segments.code, p2TestFixnump, hfixnum, Bool.false_eq_true, if_false,
        Option.isSome_some, or_true, if_true, List.append_nil, List.cons_append, List.append_assoc]
      refine goes_tag hout ?_ fun m' => hout.goes_next
      rw [hregister reg rfl, henv.fixnump_eq]
    | none =>
      generalize hprogram : (p2TestFixnump type none labels).code = program at hout
      nth_rewrite 2 [← hprogram]
      simp only [Segments.code, p2TestFixnump, hfixnum, Bool.false_eq_true, if_false,
        Option.isSome_none, or_false, List.cons_append, List.append_assoc]
      refine goes_evaluate fun m₁ h₁ hev => ?_
      rw [← hev]
      refine goes_tag hout ?_ fun m' => hout.goes_next
      rw [h₁.rax, henv.fixnump_eq]

end Handlers

/-! ## Main result -/

/-- A reference to a variable has no side effects, and a register that contains the variable holds
the value. -/
structure Arg.Sound (arg : Arg) (env : Env E) (m : Machine E) : Prop where
  varRef : ∀ register, arg = .varRef register → env.events = []
  register : ∀ reg, arg.register = some reg → m.cpu.regs reg = env.word

/-- The handler for `FIXNUMP` evaluates its argument unless the type decides the test. -/
theorem right_p2TestFixnump_iff {type : ArgType} {arg : Arg} (henv : env.Sound)
    (htype : type.Has env.value) (harg : arg.Sound env m) :
    Right env (p2TestFixnump type arg.register labels) m
        (labels.destination (some (env.value.typep .fixnum))) ↔
      ¬(type.fixnumTypeP = true ∧ env.events ≠ []) := by
  have hgoes := goes_p2TestFixnump henv htype labels arg.register harg.register
  have hevents : env.events = [] ∨ arg.register.isSome = false := by
    cases arg with
    | varRef register => exact .inl (harg.varRef register rfl)
    | form => exact .inr rfl
  constructor
  · rintro ⟨t, hruns, ht⟩ ⟨hfixnum, hne⟩
    obtain ⟨t', hruns', ht'⟩ := hgoes
    cases hruns.unique hruns'
    rw [if_pos (.inl hfixnum), ht, List.append_cancel_left_eq] at ht'
    exact hne ht'
  · intro h
    by_cases hempty : env.events = []
    · rw [hempty, ite_self] at hgoes
      rw [Right, hempty]
      exact hgoes
    · have hfixnum : type.fixnumTypeP = false := by
        rw [← Bool.not_eq_true]
        exact fun hf => h ⟨hf, hempty⟩
      have hregister := hevents.resolve_left hempty
      rw [hfixnum, hregister] at hgoes
      exact hgoes

/-- **A test evaluates its argument form once and goes to the label for the answer of the
predicate**, except where the handler for `FIXNUMP` takes the derived type for the value: the side
effects of the form are lost. -/
theorem test_right_iff (predicate : Predicate) (labels : Labels) (convention : Convention)
    {type : ArgType} {arg : Arg} (henv : env.Sound) (htype : type.Has env.value)
    (harg : arg.Sound env m) (hlabels : predicate.accepts labels = true) :
    Right env (predicate.code env type arg.register labels convention) m
        (labels.destination (predicate.holds env.comparisons env.value)) ↔
      ¬(predicate = .fixnump ∧ type.fixnumTypeP = true ∧ env.events ≠ []) := by
  by_cases hfixnump : predicate = .fixnump
  · subst hfixnump
    simp only [true_and]
    exact right_p2TestFixnump_iff henv htype harg
  · simp only [hfixnump, false_and, not_false_eq_true, iff_true]
    have honly : predicate.oneLabel = true → labels = ⟨false, true⟩ := by
      intro h
      rw [Predicate.accepts, if_pos h, Bool.and_eq_true, Bool.not_eq_true'] at hlabels
      obtain ⟨ifTrue, ifFalse⟩ := labels
      rw [Labels.mk.injEq]
      exact hlabels
    cases predicate with
    | consp => exact right_p2TestConsp henv
    | listp => exact right_p2TestListp henv
    | symbolp => exact right_p2TestSymbolp henv type htype
    | plusp => exact right_p2TestPlusp henv type htype
    | zerop => exact right_p2TestZerop henv type htype convention
    | fixnump => exact absurd rfl hfixnump
    | atom => exact honly rfl ▸ right_p2TestAtom henv
    | integerp => exact honly rfl ▸ right_p2TestIntegerp henv
    | numberp => exact honly rfl ▸ right_p2TestNumberp henv
    | functionp => exact honly rfl ▸ right_p2TestFunctionp henv
    | stringp => exact honly rfl ▸ right_p2TestStringp henv
    | vectorp => exact honly rfl ▸ right_p2TestVectorp henv
    | simpleVectorP => exact honly rfl ▸ right_p2TestSimpleVectorP henv

/-- A processor without contents. -/
def emptyCpu : X86.State := ⟨fun _ => 0, ⟨false, false, false, false⟩, fun _ => 0⟩

/-- The form `(char-code (read-char))`, which reads an `a`. -/
def charCodeEnv : Env Unit where
  nilWord := 1
  tWord := 15
  functionWord := 0
  widetagOffset := 0
  comparisons := ⟨fun _ => false, fun _ => false⟩
  value := .fixnum 97
  word := fixnumize 97
  events := [()]
  evaluated := emptyCpu
  called := emptyCpu

theorem sound_charCodeEnv : charCodeEnv.Sound :=
  ⟨rfl, by decide, by norm_num [Represents, charCodeEnv]⟩

/-- The derived type of `char-code`. -/
def charCodeType : ArgType := .integer (some 0) (some 255)

theorem has_charCodeType : charCodeType.Has charCodeEnv.value :=
  ⟨97, rfl, by simp, by simp⟩

theorem sound_form (m : Machine Unit) : Arg.form.Sound charCodeEnv m :=
  ⟨nofun, nofun⟩

/-- The test of `(integerp (char-code (read-char)))` is right. -/
theorem test_right_charCode :
    Right charCodeEnv (Predicate.integerp.code charCodeEnv charCodeType none ⟨false, true⟩ .fast)
        ⟨emptyCpu, []⟩ .next :=
  (test_right_iff .integerp ⟨false, true⟩ .fast sound_charCodeEnv has_charCodeType
    (sound_form ⟨emptyCpu, []⟩) rfl).mpr (by simp)

/-- In `(if (fixnump (char-code (read-char))) …)` no character is read. -/
theorem not_right_fixnump_charCode :
    ¬Right charCodeEnv
      (Predicate.fixnump.code charCodeEnv charCodeType Arg.form.register ⟨false, true⟩ .fast)
      ⟨emptyCpu, []⟩
      (Labels.destination ⟨false, true⟩
        (Predicate.fixnump.holds charCodeEnv.comparisons charCodeEnv.value)) := by
  intro h
  have hiff := (right_p2TestFixnump_iff sound_charCodeEnv has_charCodeType
    (sound_form ⟨emptyCpu, []⟩)).mp h
  exact hiff ⟨rfl, by simp [charCodeEnv]⟩

end Xcl.P2.TypeTest
