import Xcl.Assembler.Model

/-!
# What the assembler emits

* `Operand.place`, `Instruction.meaning`: the instruction that the operands denote;
* **`decode_assembled_iff`**: the bytes denote the instruction exactly then.
-/

namespace Xcl.Assembler

open X86

/-- A number as a signed 64-bit word. -/
def word (n : ℤ) : ℤ := n.bmod (2 ^ 64)

/-- The operand in the form that is decoded. -/
def Operand.place : Operand → Place
  | .null => .none
  | .reg64 r => .reg r
  | .int n => .imm (word n)
  | .mem base => .mem ⟨.reg base, none, 0⟩
  | .memDisp displacement base => .mem ⟨.reg base, none, word displacement⟩

/-- The operation that an instruction denotes. The count of a shift may be left out, and `:push` and
`:pop` have one operand. -/
def Instruction.meaning (i : Instruction) : Decoded :=
  match i.mnemonic, i.operand1, i.operand2 with
  | .sar, .reg64 r, .null => ⟨.sar, .imm 1, .reg r⟩
  | .shl, .reg64 r, .null => ⟨.shl, .imm 1, .reg r⟩
  | .push, operand1, _ => ⟨.push, operand1.place, .none⟩
  | .pop, operand1, _ => ⟨.pop, operand1.place, .none⟩
  | mnemonic, operand1, operand2 => ⟨mnemonic, operand1.place, operand2.place⟩

/-! ## Numbers -/

theorem ldb8_succ (i : ℕ) (n : ℤ) : ldb8 (8 * (i + 1)) n = ldb8 (8 * i) (n / 256) := by
  unfold ldb8
  rw [Int.ediv_ediv_of_nonneg (by norm_num), Nat.mul_succ, pow_add, mul_comm]
  norm_num

theorem rawBytes_succ (k : ℕ) (n : ℤ) :
    rawBytes (k + 1) n = (n % 256).toNat :: rawBytes k (n / 256) := by
  unfold rawBytes
  rw [List.range_succ_eq_map, List.map_cons, List.map_map]
  refine congrArg₂ _ (by simp [ldb8]) (List.map_congr_left fun i _ => ldb8_succ i n)

theorem emod_256_mul (n m : ℤ) : n % (256 * m) = n % 256 + 256 * (n / 256 % m) := by
  rw [Int.emod_def, Int.emod_def n 256, Int.emod_def (n / 256) m,
    Int.ediv_ediv_of_nonneg (by norm_num)]
  ring

theorem takeUnsigned_rawBytes (k : ℕ) (n : ℤ) (bytes : List ℕ) :
    takeUnsigned k (rawBytes k n ++ bytes) = some ((n % 2 ^ (8 * k)).toNat, bytes) := by
  induction k generalizing n with
  | zero => simp [takeUnsigned, rawBytes]
  | succ k ih =>
    rw [rawBytes_succ, List.cons_append, takeUnsigned, ih]
    simp only [Option.bind_eq_bind, Option.bind_some, Option.pure_def, Option.some.injEq,
      Prod.mk.injEq, and_true]
    have hpow : (2 : ℤ) ^ (8 * (k + 1)) = 256 * 2 ^ (8 * k) := by
      rw [Nat.mul_succ, pow_add]
      ring
    have hpos : (0 : ℤ) < 2 ^ (8 * k) := by positivity
    rw [hpow, emod_256_mul]
    have h₁ := Int.emod_nonneg n (show (256 : ℤ) ≠ 0 by norm_num)
    have h₂ := Int.emod_nonneg (n / 256) hpos.ne'
    omega

/-- **A number is read back** modulo the size of its field. -/
theorem takeSigned_rawBytes (k : ℕ) (n : ℤ) (bytes : List ℕ) :
    takeSigned k (rawBytes k n ++ bytes) = some (n.bmod (2 ^ (8 * k)), bytes) := by
  have hpos : (0 : ℤ) < 2 ^ (8 * k) := by positivity
  rw [takeSigned, takeUnsigned_rawBytes]
  simp only [Option.bind_eq_bind, Option.bind_some, Option.pure_def, Option.some.injEq,
    Prod.mk.injEq, and_true]
  rw [Int.toNat_of_nonneg (Int.emod_nonneg n hpos.ne')]
  have hcast : (2 : ℤ) ^ (8 * k) = ((2 ^ (8 * k) : ℕ) : ℤ) := by push_cast; rfl
  rw [hcast, Int.emod_bmod]

theorem rawBytes_one (n : ℤ) : rawBytes 1 n = [ldb8 0 n] := rfl

theorem bmod_self_of_signedByte {w : ℕ} (hw : 0 < w) {n : ℤ} (h : signedByte w n = true) :
    n.bmod (2 ^ w) = n := by
  obtain ⟨v, rfl⟩ : ∃ v, w = v + 1 := ⟨w - 1, by omega⟩
  simp only [signedByte, Nat.add_sub_cancel, Bool.and_eq_true, decide_eq_true_eq] at h
  have hpow : ((2 ^ (v + 1) : ℕ) : ℤ) = 2 * 2 ^ v := by
    push_cast
    ring
  rw [Int.bmod_eq_of_le] <;> omega

theorem signedByte_mono {w v : ℕ} (hwv : w ≤ v) {n : ℤ} (h : signedByte w n = true) :
    signedByte v n = true := by
  simp only [signedByte, Bool.and_eq_true, decide_eq_true_eq] at h ⊢
  have hle : (2 : ℤ) ^ (w - 1) ≤ 2 ^ (v - 1) := pow_le_pow_right₀ (by norm_num) (by omega)
  omega

theorem word_of_signedByte {w : ℕ} (hw : w ≤ 64) {n : ℤ} (h : signedByte w n = true) :
    word n = n :=
  bmod_self_of_signedByte (by norm_num) (signedByte_mono hw h)

theorem bmod_of_signedByte {w : ℕ} (hw : 0 < w) (hw' : w ≤ 64) {n : ℤ}
    (h : signedByte w n = true) : n.bmod (2 ^ w) = word n := by
  rw [bmod_self_of_signedByte hw h, word_of_signedByte hw' h]

theorem word_of_unsignedByte {w : ℕ} (hw : w < 64) {n : ℤ} (h : unsignedByte w n = true) :
    word n = n := by
  simp only [unsignedByte, Bool.and_eq_true, decide_eq_true_eq] at h
  have hle : (2 : ℤ) ^ w ≤ 2 ^ 63 := pow_le_pow_right₀ (by norm_num) (by omega)
  rw [word, Int.bmod_eq_of_le] <;> norm_num at hle ⊢ <;> omega

/-- A displacement is a sign-extended 32-bit number, as a 64-bit word. -/
def fits32 (n : ℤ) : Bool := signedByte 32 (word n)

theorem fits32_of_signedByte {n : ℤ} (h : signedByte 8 n = true) : fits32 n = true := by
  rw [fits32, word_of_signedByte (by norm_num) h]
  exact signedByte_mono (by norm_num) h

theorem bmod_eq_word_iff (n : ℤ) : n.bmod (2 ^ 32) = word n ↔ fits32 n = true := by
  have hword : n.bmod (2 ^ 32) = (word n).bmod (2 ^ 32) := by
    rw [word, Int.bmod_bmod_of_dvd (by norm_num)]
  have hlo := Int.le_bmod (x := word n) (m := 2 ^ 32) (by norm_num)
  have hhi := Int.bmod_lt (x := word n) (m := 2 ^ 32) (by norm_num)
  rw [hword, fits32, signedByte]
  simp only [Bool.and_eq_true, decide_eq_true_eq]
  constructor
  · intro h
    rw [h] at hlo hhi
    norm_num at hlo hhi ⊢
    omega
  · intro h
    norm_num at h
    rw [Int.bmod_eq_of_le] <;> norm_num <;> omega

/-! ## Registers -/

theorem register_eq_iff (extended : Bool) (r : Reg64) :
    register extended (registerNumber r) = r ↔ extendedRegisterP r = extended := by
  cases extended <;> cases r <;> decide

theorem eq_rsp_or_r12 (r : Reg64) : r = .rsp ∨ r = .r12 ↔ registerNumber r = 4 := by
  cases r <;> decide

theorem takeRex_prefixByte (r b : Reg64) (bytes : List ℕ) : takeRex (prefixByte r b :: bytes) =
    (⟨true, extendedRegisterP r, false, extendedRegisterP b⟩, bytes) := by
  unfold prefixByte
  cases extendedRegisterP r <;> cases extendedRegisterP b <;> rfl

theorem takeRex_prefixByte1 (b : Reg64) (bytes : List ℕ) : takeRex (prefixByte1 b :: bytes) =
    (⟨true, false, false, extendedRegisterP b⟩, bytes) := by
  unfold prefixByte1
  cases extendedRegisterP b <;> rfl

theorem takeRex_48 (bytes : List ℕ) :
    takeRex (0x48 :: bytes) = (⟨true, false, false, false⟩, bytes) :=
  rfl

/-! ## ModRM bytes -/

section

variable {rex : Rex} {mod reg rm : ℕ}

theorem makeModrmByte_eq (mod reg rm : ℕ) : makeModrmByte mod reg rm = 64 * mod + 8 * reg + rm := by
  rw [makeModrmByte, Nat.shiftLeft_eq, Nat.shiftLeft_eq]
  omega

theorem takeModrm_reg (hreg : reg < 8) (r : Reg64) (bytes : List ℕ) :
    takeModrm rex (makeModrmByte 3 reg (registerNumber r) :: bytes) =
      some (reg, .reg (register rex.b (registerNumber r)), bytes) := by
  have hr := registerNumber_lt r
  have hmod : makeModrmByte 3 reg (registerNumber r) / 64 = 3 := by
    rw [makeModrmByte_eq]
    omega
  have hreg' : makeModrmByte 3 reg (registerNumber r) / 8 % 8 = reg := by
    rw [makeModrmByte_eq]
    omega
  have hrm : makeModrmByte 3 reg (registerNumber r) % 8 = registerNumber r := by
    rw [makeModrmByte_eq]
    omega
  simp only [takeModrm, hmod, hreg', hrm, if_true]

theorem takeModrm_mem (hmod : mod < 3) (hreg : reg < 8) (base : Reg64) (bytes : List ℕ) :
    takeModrm rex (makeModrmByte mod reg (registerNumber base) :: bytes) = do
      let (base, index, bytes) ← takeBase rex mod (registerNumber base) bytes
      let (disp, bytes) ← takeSigned (dispSize mod base) bytes
      return (reg, .mem ⟨base, index, disp⟩, bytes) := by
  have hr := registerNumber_lt base
  have hmod' : makeModrmByte mod reg (registerNumber base) / 64 = mod := by
    rw [makeModrmByte_eq]
    omega
  have hreg' : makeModrmByte mod reg (registerNumber base) / 8 % 8 = reg := by
    rw [makeModrmByte_eq]
    omega
  have hrm : makeModrmByte mod reg (registerNumber base) % 8 = registerNumber base := by
    rw [makeModrmByte_eq]
    omega
  have hne : mod ≠ 3 := by omega
  simp only [takeModrm, hmod', hreg', hrm, hne, if_false]

theorem takeBase_of_ne {base : Reg64} (h₄ : registerNumber base ≠ 4)
    (h₅ : mod = 0 → registerNumber base ≠ 5) (bytes : List ℕ) :
    takeBase rex mod (registerNumber base) bytes =
      some (.reg (register rex.b (registerNumber base)), none, bytes) := by
  rw [takeBase, if_neg h₄, if_neg fun h => h₅ h.2 h.1]

theorem takeBase_sib {base : Reg64} (h₄ : registerNumber base = 4) (hx : rex.x = false)
    (bytes : List ℕ) : takeBase rex mod (registerNumber base) (0x24 :: bytes) =
      some (.reg (register rex.b (registerNumber base)), none, bytes) := by
  rw [takeBase, if_pos h₄, h₄]
  simp [takeSib, hx]

/-- The memory operand that is decoded from a base field. -/
def basePlace (rex : Rex) (base : Reg64) (disp : ℤ) : Place :=
  .mem ⟨.reg (register rex.b (registerNumber base)), none, disp⟩

theorem takeModrm_of_takeBase {base : Reg64} {bytes bytes' : List ℕ} (hmod : mod < 3)
    (hreg : reg < 8) (h : takeBase rex mod (registerNumber base) bytes =
      some (.reg (register rex.b (registerNumber base)), none, bytes')) :
    takeModrm rex (makeModrmByte mod reg (registerNumber base) :: bytes) =
      (takeSigned (if mod = 0 then 0 else if mod = 1 then 1 else 4) bytes').map
        fun (disp, bytes) => (reg, basePlace rex base disp, bytes) := by
  rw [takeModrm_mem hmod hreg, h]
  simp only [Option.bind_eq_bind, Option.bind_some, dispSize, basePlace, Option.pure_def]
  cases takeSigned (if mod = 0 then 0 else if mod = 1 then 1 else 4) bytes' <;> rfl

theorem takeModrm_disp0 (rex : Rex) (hreg : reg < 8) (base : Reg64) :
    takeModrm rex [makeModrmByte 0 reg (registerNumber base)] =
      if registerNumber base = 4 ∨ registerNumber base = 5 then none
      else some (reg, basePlace rex base 0, []) := by
  by_cases h₄ : registerNumber base = 4
  · rw [if_pos (.inl h₄), takeModrm_mem (by norm_num) hreg, takeBase, if_pos h₄]
    rfl
  · by_cases h₅ : registerNumber base = 5
    · rw [if_pos (.inr h₅), takeModrm_mem (by norm_num) hreg, takeBase, if_neg h₄,
        if_pos ⟨h₅, rfl⟩]
      rfl
    · rw [if_neg (not_or.mpr ⟨h₄, h₅⟩),
        takeModrm_of_takeBase (by norm_num) hreg (takeBase_of_ne h₄ (fun _ => h₅) [])]
      rfl

theorem takeModrm_disp8_sib (rex : Rex) (hx : rex.x = false) (hreg : reg < 8) (base : Reg64)
    (d : ℤ) :
    takeModrm rex (makeModrmByte 1 reg (registerNumber base) :: (sibByte base ++ [ldb8 0 d])) =
      some (reg, basePlace rex base (d.bmod (2 ^ 8)), []) := by
  have hbase : takeBase rex 1 (registerNumber base) (sibByte base ++ [ldb8 0 d]) =
      some (.reg (register rex.b (registerNumber base)), none, rawBytes 1 d ++ []) := by
    rw [sibByte]
    by_cases h₄ : registerNumber base = 4
    · rw [if_pos ((eq_rsp_or_r12 base).mpr h₄)]
      exact takeBase_sib h₄ hx _
    · rw [if_neg fun h => h₄ ((eq_rsp_or_r12 base).mp h)]
      exact takeBase_of_ne h₄ (by simp) _
  rw [takeModrm_of_takeBase (by norm_num) hreg hbase]
  simp only [one_ne_zero, if_false, if_true, takeSigned_rawBytes]
  rfl

theorem takeModrm_disp8 (rex : Rex) (hreg : reg < 8) (base : Reg64) (d : ℤ) :
    takeModrm rex [makeModrmByte 1 reg (registerNumber base), ldb8 0 d] =
      if registerNumber base = 4 then none
      else some (reg, basePlace rex base (d.bmod (2 ^ 8)), []) := by
  by_cases h₄ : registerNumber base = 4
  · rw [if_pos h₄, takeModrm_mem (by norm_num) hreg, takeBase, if_pos h₄]
    simp [takeSib, dispSize, takeSigned, takeUnsigned]
  · rw [if_neg h₄, takeModrm_of_takeBase (by norm_num) hreg (takeBase_of_ne h₄ (by simp) _)]
    have h := takeSigned_rawBytes 1 d []
    rw [List.append_nil, rawBytes_one] at h
    simp only [one_ne_zero, if_false, if_true, h]
    rfl

theorem takeModrm_disp32 (rex : Rex) (hreg : reg < 8) (base : Reg64) (d : ℤ) :
    takeModrm rex (makeModrmByte 2 reg (registerNumber base) :: emitRaw d) =
      if registerNumber base = 4 then none
      else some (reg, basePlace rex base (d.bmod (2 ^ 32)), []) := by
  by_cases h₄ : registerNumber base = 4
  · have hbytes : emitRaw d = [ldb8 0 d, ldb8 8 d, ldb8 16 d, ldb8 24 d] := rfl
    rw [if_pos h₄, takeModrm_mem (by norm_num) hreg, takeBase, if_pos h₄, hbytes]
    simp [takeSib, dispSize, takeSigned, takeUnsigned]
  · rw [if_neg h₄, takeModrm_of_takeBase (by norm_num) hreg (takeBase_of_ne h₄ (by simp) _)]
    have h := takeSigned_rawBytes 4 d []
    rw [List.append_nil] at h
    norm_num [emitRaw, h]

end

/-! ## Instructions -/

structure WideOpcode (opcode : ℕ) : Prop where
  stack : ∀ rex bytes, decodeStack rex opcode bytes = none
  oneByte : opcode ≠ 0x0f

theorem decode_wide {opcode byte : ℕ} {r b : Bool} (h : WideOpcode opcode)
    (hrex : ∀ bytes, takeRex (byte :: bytes) = (⟨true, r, false, b⟩, bytes)) (bytes : List ℕ) :
    decode (byte :: opcode :: bytes) = complete (decodeWide ⟨true, r, false, b⟩ opcode bytes) := by
  rw [decode, hrex]
  simp only [decodeOpcode, h.stack, if_true]
  split
  · exact absurd rfl h.oneByte
  · rfl

theorem decode_regReg {mnemonic : Mnemonic} {opcode byte : ℕ} {r b : Bool} (h : WideOpcode opcode)
    (hopcode : ∀ rex bytes, decodeWide rex opcode bytes = regToRm mnemonic rex bytes)
    (hrex : ∀ bytes, takeRex (byte :: bytes) = (⟨true, r, false, b⟩, bytes)) (reg1 reg2 : Reg64) :
    decode [byte, opcode, makeModrmByte 3 (registerNumber reg1) (registerNumber reg2)] =
      some ⟨mnemonic, .reg (register r (registerNumber reg1)),
        .reg (register b (registerNumber reg2))⟩ := by
  rw [decode_wide h hrex, hopcode, regToRm, takeModrm_reg (registerNumber_lt reg1)]
  rfl

theorem decode_immReg {mnemonic : Mnemonic} {opcode byte field k : ℕ} {group : ℕ → Option Mnemonic}
    {b : Bool} (h : WideOpcode opcode)
    (hopcode : ∀ rex bytes, decodeWide rex opcode bytes = immToRm group k rex bytes)
    (hrex : ∀ bytes, takeRex (byte :: bytes) = (⟨true, false, false, b⟩, bytes))
    (hfield : field < 8) (hgroup : group field = some mnemonic) (n : ℤ) (reg2 : Reg64) :
    decode (byte :: opcode :: makeModrmByte 3 field (registerNumber reg2) :: rawBytes k n) =
      some ⟨mnemonic, .imm (n.bmod (2 ^ (8 * k))), .reg (register b (registerNumber reg2))⟩ := by
  have hn := takeSigned_rawBytes k n []
  rw [List.append_nil] at hn
  rw [decode_wide h hrex, hopcode, immToRm, takeModrm_reg hfield]
  simp only [Option.bind_eq_bind, Option.bind_some, hgroup, hn]
  rfl

theorem decode_assembleRegReg {mnemonic : Mnemonic} {opcode : ℕ} (h : WideOpcode opcode)
    (hopcode : ∀ rex bytes, decodeWide rex opcode bytes = regToRm mnemonic rex bytes)
    (reg1 reg2 : Reg64) :
    decode (assembleRegReg opcode reg1 reg2) = some ⟨mnemonic, .reg reg1, .reg reg2⟩ := by
  rw [assembleRegReg, decode_regReg h hopcode (takeRex_prefixByte reg1 reg2),
    register_registerNumber, register_registerNumber]

theorem decode_assembleLowRegReg {mnemonic : Mnemonic} {opcode : ℕ} (h : WideOpcode opcode)
    (hopcode : ∀ rex bytes, decodeWide rex opcode bytes = regToRm mnemonic rex bytes)
    (reg1 reg2 : Reg64) :
    decode (assembleLowRegReg opcode reg1 reg2) = some ⟨mnemonic, .reg reg1, .reg reg2⟩ ↔
      extendedRegisterP reg1 = false ∧ extendedRegisterP reg2 = false := by
  rw [assembleLowRegReg, decode_regReg h hopcode takeRex_48]
  simp [register_eq_iff]

theorem decode_assembleImmReg {mnemonic : Mnemonic} {field : ℕ} (hfield : field < 8)
    (hgroup : group1 field = some mnemonic) {n : ℤ} {reg2 : Reg64} {bytes : List ℕ}
    (h : assembleImmReg field n reg2 = some bytes) :
    decode bytes = some ⟨mnemonic, .imm (word n), .reg reg2⟩ := by
  simp only [assembleImmReg] at h
  split_ifs at h with h₈ h₃₂
  · cases h
    have w : WideOpcode 0x83 := ⟨fun _ _ => rfl, by decide⟩
    have hd := decode_immReg (k := 1) w (fun _ _ => rfl)
      (takeRex_prefixByte1 reg2) hfield hgroup n reg2
    rw [register_registerNumber, bmod_of_signedByte (by norm_num) (by norm_num) h₈] at hd
    exact hd
  · cases h
    have w : WideOpcode 0x81 := ⟨fun _ _ => rfl, by decide⟩
    have hd := decode_immReg (k := 4) w (fun _ _ => rfl)
      (takeRex_prefixByte1 reg2) hfield hgroup n reg2
    rw [register_registerNumber, bmod_of_signedByte (by norm_num) (by norm_num) h₃₂] at hd
    exact hd

/-- **`:add`.** -/
theorem decode_assembleAdd {operand1 operand2 : Operand} {bytes : List ℕ}
    (h : assembleAdd operand1 operand2 = some bytes) :
    decode bytes = some ⟨.add, operand1.place, operand2.place⟩ := by
  unfold assembleAdd at h
  split at h
  · cases h
    exact decode_assembleRegReg ⟨fun _ _ => rfl, by decide⟩ (fun _ _ => rfl) _ _
  · exact decode_assembleImmReg (by norm_num) rfl h
  · cases h

/-- **`:sub`.** -/
theorem decode_assembleSub {operand1 operand2 : Operand} {bytes : List ℕ}
    (h : assembleSub operand1 operand2 = some bytes) :
    decode bytes = some ⟨.sub, operand1.place, operand2.place⟩ := by
  unfold assembleSub at h
  split at h
  · exact decode_assembleImmReg (by norm_num) rfl h
  · cases h
    exact decode_assembleRegReg ⟨fun _ _ => rfl, by decide⟩ (fun _ _ => rfl) _ _
  · cases h

/-- The forms of `:and` and `:cmp` with an immediate and `:rax`. -/
theorem decode_immRax {mnemonic : Mnemonic} {opcode : ℕ} (h : WideOpcode opcode)
    (hopcode : ∀ rex bytes, decodeWide rex opcode bytes = immToReg mnemonic 4 .rax bytes) {n : ℤ}
    (hn : signedByte 32 n = true) :
    decode ([0x48, opcode] ++ emitRaw n) = some ⟨mnemonic, .imm (word n), .reg .rax⟩ := by
  have hbytes := takeSigned_rawBytes 4 n []
  rw [List.append_nil] at hbytes
  rw [List.cons_append, List.cons_append, List.nil_append, decode_wide h takeRex_48, hopcode,
    immToReg, emitRaw, hbytes, ← bmod_of_signedByte (by norm_num) (by norm_num) hn]
  rfl

/-- **`:and`** with an immediate. -/
theorem decode_assembleAnd_imm {n : ℤ} {reg2 : Reg64} {bytes : List ℕ}
    (h : assembleAnd (.int n) (.reg64 reg2) = some bytes) :
    decode bytes = some ⟨.and, .imm (word n), .reg reg2⟩ ↔ extendedRegisterP reg2 = false := by
  simp only [assembleAnd] at h
  split_ifs at h with h₃₂ h₈
  · cases h
    obtain ⟨hn, rfl⟩ := h₃₂
    have w : WideOpcode 0x25 := ⟨fun _ _ => rfl, by decide⟩
    rw [decode_immRax w (fun _ _ => rfl) hn]
    simp [extendedRegisterP]
  · cases h
    have w : WideOpcode 0x83 := ⟨fun _ _ => rfl, by decide⟩
    have hd := decode_immReg (k := 1) w (fun _ _ => rfl) takeRex_48 (show 4 < 8 by norm_num) rfl
      n reg2
    rw [bmod_of_signedByte (by norm_num) (by norm_num) h₈, rawBytes_one] at hd
    rw [hd]
    simp [register_eq_iff]

/-- **`:cmp`** with an immediate. -/
theorem decode_assembleCmp_imm {n : ℤ} {reg2 : Reg64} {bytes : List ℕ}
    (h : assembleCmp (.int n) (.reg64 reg2) = some bytes) :
    decode bytes = some ⟨.cmp, .imm (word n), .reg reg2⟩ := by
  simp only [assembleCmp] at h
  split_ifs at h with h₃₂ hmem
  · cases h
    obtain ⟨hn, rfl⟩ := h₃₂
    exact decode_immRax ⟨fun _ _ => rfl, by decide⟩ (fun _ _ => rfl) hn
  · cases h
    have w : WideOpcode 0x81 := ⟨fun _ _ => rfl, by decide⟩
    have hd := decode_immReg (k := 4) w (fun _ _ => rfl) takeRex_48 (show 7 < 8 by norm_num) rfl
      n reg2
    rw [bmod_of_signedByte (by norm_num) (by norm_num) hmem.1] at hd
    have hlow : extendedRegisterP reg2 = false := by
      have := hmem.2
      cases reg2 <;> simp_all [extendedRegisterP]
    rw [(register_eq_iff false reg2).mpr hlow] at hd
    exact hd

/-- The memory form of **`:cmp`**: the SIB byte depends on the wrong register. -/
theorem decode_assembleCmp_mem {reg1 reg2 : Reg64} {displacement : ℤ} {bytes : List ℕ}
    (h : assembleCmp (.reg64 reg1) (.memDisp displacement reg2) = some bytes) :
    decode bytes =
        some ⟨.cmp, .reg reg1, .mem ⟨.reg reg2, none, word displacement⟩⟩ ↔
      extendedRegisterP reg1 = extendedRegisterP reg2 ∧
        (registerNumber reg1 = 4 ↔ registerNumber reg2 = 4) := by
  simp only [assembleCmp] at h
  split_ifs at h with h₈
  cases h
  have w : WideOpcode 0x39 := ⟨fun _ _ => rfl, by decide⟩
  rw [List.append_assoc, List.cons_append, List.cons_append, List.cons_append, List.nil_append,
    decode_wide w (takeRex_prefixByte reg2 reg1)]
  simp only [decodeWide, regToRm]
  by_cases hsib : registerNumber reg1 = 4 ↔ registerNumber reg2 = 4
  · have hbytes : sibByte reg1 = sibByte reg2 := by
      simp only [sibByte, eq_rsp_or_r12, hsib]
    rw [hbytes, takeModrm_disp8_sib _ rfl (registerNumber_lt reg1), basePlace,
      bmod_of_signedByte (by norm_num) (by norm_num) h₈]
    simp only [Option.bind_eq_bind, Option.bind_some, Option.pure_def, complete, Option.some.injEq,
      Decoded.mk.injEq, true_and, Place.reg.injEq, Place.mem.injEq, Address.mk.injEq,
      Base.reg.injEq, register_eq_iff, and_true]
    exact ⟨fun h => ⟨h.1, hsib⟩, fun h => ⟨h.1, h.1.symm⟩⟩
  · simp only [hsib, and_false, iff_false]
    by_cases h₁ : registerNumber reg1 = 4
    · -- the byte `24` is taken for the displacement, and one byte is left
      have h₂ : registerNumber reg2 ≠ 4 := fun h₂ => hsib ⟨fun _ => h₂, fun _ => h₁⟩
      have hbytes : sibByte reg1 = [0x24] := if_pos ((eq_rsp_or_r12 reg1).mpr h₁)
      rw [hbytes, takeModrm_of_takeBase (by norm_num) (registerNumber_lt reg1)
        (takeBase_of_ne h₂ (by simp) _)]
      simp [takeSigned, takeUnsigned, complete]
    · -- the displacement is taken for the SIB byte, and none is left
      have h₂ : registerNumber reg2 = 4 := by
        by_contra h₂
        exact hsib ⟨fun h => absurd h h₁, fun h => absurd h h₂⟩
      have hbytes : sibByte reg1 = [] := if_neg fun h => h₁ ((eq_rsp_or_r12 reg1).mp h)
      rw [hbytes, List.nil_append, takeModrm_disp8 _ (registerNumber_lt reg1), if_pos h₂]
      simp [complete]

/-- **`:test`** with an immediate. -/
theorem decode_assembleTest_imm {n : ℤ} {reg2 : Reg64} {bytes : List ℕ}
    (h : assembleTest (.int n) (.reg64 reg2) = some bytes) :
    decode bytes = some ⟨.test, .imm (word n), .reg reg2⟩ ↔
      extendedRegisterP reg2 = false ∧ n < 2 ^ 31 := by
  simp only [assembleTest] at h
  split_ifs at h with h₃₂
  cases h
  have w : WideOpcode 0xf7 := ⟨fun _ _ => rfl, by decide⟩
  have hd := decode_immReg (k := 4) w (fun _ _ => rfl) takeRex_48 (show 0 < 8 by norm_num) rfl
    n reg2
  have hfits : n.bmod (2 ^ (8 * 4)) = word n ↔ n < 2 ^ 31 := by
    rw [bmod_eq_word_iff, fits32, word_of_unsignedByte (by norm_num) h₃₂]
    simp only [unsignedByte, Bool.and_eq_true, decide_eq_true_eq] at h₃₂
    simp only [signedByte, Bool.and_eq_true, decide_eq_true_eq]
    norm_num
    omega
  show decode (0x48 :: 0xf7 :: makeModrmByte 3 0 (registerNumber reg2) :: rawBytes 4 n) = _ ↔ _
  rw [hd]
  simp only [Option.some.injEq, Decoded.mk.injEq, true_and, Place.imm.injEq, Place.reg.injEq,
    register_eq_iff, hfits]
  exact and_comm

theorem decode_shift1 {mnemonic : Mnemonic} {byte field : ℕ} {b : Bool}
    (hrex : ∀ bytes, takeRex (byte :: bytes) = (⟨true, false, false, b⟩, bytes))
    (hfield : field < 8) (hgroup : group2 field = some mnemonic) (reg2 : Reg64) :
    decode [byte, 0xd1, makeModrmByte 3 field (registerNumber reg2)] =
      some ⟨mnemonic, .imm 1, .reg (register b (registerNumber reg2))⟩ := by
  have w : WideOpcode 0xd1 := ⟨fun _ _ => rfl, by decide⟩
  rw [decode_wide w hrex]
  simp only [decodeWide, shiftRm, takeModrm_reg hfield, Option.bind_eq_bind, Option.bind_some,
    hgroup]
  rfl

theorem decode_shift {mnemonic : Mnemonic} {byte field : ℕ} {b : Bool}
    (hrex : ∀ bytes, takeRex (byte :: bytes) = (⟨true, false, false, b⟩, bytes))
    (hfield : field < 8) (hgroup : group2 field = some mnemonic) {n : ℤ}
    (hn : unsignedByte 8 n = true) (reg2 : Reg64) :
    decode [byte, 0xc1, makeModrmByte 3 field (registerNumber reg2), n.toNat] =
      some ⟨mnemonic, .imm (word n), .reg (register b (registerNumber reg2))⟩ := by
  have w : WideOpcode 0xc1 := ⟨fun _ _ => rfl, by decide⟩
  rw [decode_wide w hrex, word_of_unsignedByte (by norm_num) hn]
  simp only [unsignedByte, Bool.and_eq_true, decide_eq_true_eq] at hn
  simp only [decodeWide, shiftRm, takeModrm_reg hfield, Option.bind_eq_bind, Option.bind_some,
    hgroup, takeUnsigned, Option.pure_def, mul_zero, add_zero, Int.toNat_of_nonneg hn.1]
  rfl

/-- **`:sar`.** -/
theorem decode_assembleSar {n : ℤ} {reg2 : Reg64} {bytes : List ℕ}
    (h : assembleSar (.int n) (.reg64 reg2) = some bytes) :
    decode bytes = some ⟨.sar, .imm (word n), .reg reg2⟩ ↔ extendedRegisterP reg2 = false := by
  simp only [assembleSar] at h
  split_ifs at h with h₁ h₈
  · cases h
    subst h₁
    rw [decode_shift1 takeRex_48 (by norm_num) rfl]
    simp [register_eq_iff, word]
  · cases h
    rw [decode_shift takeRex_48 (by norm_num) rfl h₈]
    simp [register_eq_iff]

/-- **`:shl`.** -/
theorem decode_assembleShl {n : ℤ} {reg2 : Reg64} {bytes : List ℕ}
    (h : assembleShl (.int n) (.reg64 reg2) = some bytes) :
    decode bytes = some ⟨.shl, .imm (word n), .reg reg2⟩ := by
  simp only [assembleShl] at h
  split_ifs at h with h₁ h₈
  · cases h
    subst h₁
    rw [decode_shift1 (takeRex_prefixByte1 reg2) (by norm_num) rfl, register_registerNumber]
    rfl
  · cases h
    rw [decode_shift (takeRex_prefixByte1 reg2) (by norm_num) rfl h₈, register_registerNumber]

/-- **`:cmovg`** and **`:cmovl`**: the bits of the prefix byte are exchanged. -/
theorem decode_assembleCmov {mnemonic : Mnemonic} {opcode : ℕ}
    (hopcode : ∀ rex bytes, decodeTwoByte rex opcode bytes = rmToReg mnemonic rex bytes)
    {reg1 reg2 : Reg64} {bytes : List ℕ}
    (h : assembleCmov opcode (.reg64 reg1) (.reg64 reg2) = some bytes) :
    decode bytes = some ⟨mnemonic, .reg reg1, .reg reg2⟩ ↔
      extendedRegisterP reg1 = extendedRegisterP reg2 := by
  simp only [assembleCmov, Option.some.injEq] at h
  subst h
  have hdecode : decode [prefixByte reg1 reg2, 0x0f, opcode,
      makeModrmByte 3 (registerNumber reg2) (registerNumber reg1)] =
      complete (decodeTwoByte ⟨true, extendedRegisterP reg1, false, extendedRegisterP reg2⟩ opcode
        [makeModrmByte 3 (registerNumber reg2) (registerNumber reg1)]) := by
    rw [decode, takeRex_prefixByte]
    rfl
  rw [hdecode, hopcode, rmToReg, takeModrm_reg (registerNumber_lt reg2)]
  simp only [Option.bind_eq_bind, Option.bind_some, Option.pure_def, complete, Option.some.injEq,
    Decoded.mk.injEq, true_and, Place.reg.injEq, register_eq_iff]
  exact ⟨fun h => h.1, fun h => ⟨h, h.symm⟩⟩

/-- **`:lea`.** -/
theorem decode_assembleLea {displacement : ℤ} {reg1 reg2 : Reg64} {bytes : List ℕ}
    (h : assembleLea (.memDisp displacement reg1) (.reg64 reg2) = some bytes) :
    decode bytes = some ⟨.lea, .mem ⟨.reg reg1, none, word displacement⟩, .reg reg2⟩ := by
  simp only [assembleLea] at h
  split_ifs at h with h₈
  cases h
  have w : WideOpcode 0x8d := ⟨fun _ _ => rfl, by decide⟩
  rw [List.append_assoc, List.cons_append, List.cons_append, List.cons_append, List.nil_append,
    decode_wide w (takeRex_prefixByte reg2 reg1)]
  simp only [decodeWide, leaToReg]
  rw [takeModrm_disp8_sib _ rfl (registerNumber_lt reg2), basePlace,
    bmod_of_signedByte (by norm_num) (by norm_num) h₈]
  simp [complete]

/-! ## Moves -/

/-- A base register that needs neither a SIB byte nor a displacement. -/
def PlainBase (base : Reg64) : Prop := registerNumber base ≠ 4 ∧ registerNumber base ≠ 5

/-- The memory operands of `:mov` that are emitted right. -/
def MovEncodable (displacement : ℤ) (base : Reg64) : Prop :=
  if displacement = 0 then PlainBase base
  else signedByte 8 displacement = true ∨
    registerNumber base ≠ 4 ∧ fits32 displacement = true

structure Form (opcode : ℕ) (form : Reg64 → Place → Decoded) : Prop extends WideOpcode opcode where
  decodes : ∀ rex bytes, decodeWide rex opcode bytes =
    (takeModrm rex bytes).map fun (reg, rm, bytes) => (form (register rex.r reg) rm, bytes)
  injective : ∀ r, Function.Injective (form r)

theorem form_load : Form 0x8b fun r p => ⟨.mov, p, .reg r⟩ where
  stack _ _ := rfl
  oneByte := by decide
  decodes rex bytes := by
    simp only [decodeWide, rmToReg]
    cases takeModrm rex bytes <;> rfl
  injective r p p' h := by
    injection h

theorem form_store : Form 0x89 fun r p => ⟨.mov, .reg r, p⟩ where
  stack _ _ := rfl
  oneByte := by decide
  decodes rex bytes := by
    simp only [decodeWide, regToRm]
    cases takeModrm rex bytes <;> rfl
  injective r p p' h := by
    injection h

section

variable {opcode : ℕ} {form : Reg64 → Place → Decoded}

def baseRex (reg base : Reg64) : Rex := ⟨true, extendedRegisterP reg, false, extendedRegisterP base⟩

theorem decode_form (h : Form opcode form) {reg base : Reg64} {bytes : List ℕ} {p : Option Place}
    (hbytes : takeModrm (baseRex reg base) bytes = p.map fun p => (registerNumber reg, p, [])) :
    decode (prefixByte reg base :: opcode :: bytes) = p.map (form reg) := by
  rw [decode_wide h.toWideOpcode (takeRex_prefixByte reg base), h.decodes]
  rw [baseRex] at hbytes
  rw [hbytes]
  cases p with
  | none => rfl
  | some p => simp [complete]

theorem basePlace_baseRex (reg base : Reg64) (disp : ℤ) :
    basePlace (baseRex reg base) base disp = .mem ⟨.reg base, none, disp⟩ := by
  simp [basePlace, baseRex]

theorem decode_disp0 (h : Form opcode form) (reg base : Reg64) :
    decode [prefixByte reg base, opcode,
        makeModrmByte 0 (registerNumber reg) (registerNumber base)] =
      some (form reg (.mem ⟨.reg base, none, 0⟩)) ↔ PlainBase base := by
  have hbytes := takeModrm_disp0 (baseRex reg base) (registerNumber_lt reg) base
  rw [basePlace_baseRex] at hbytes
  by_cases hbase : registerNumber base = 4 ∨ registerNumber base = 5
  · rw [if_pos hbase] at hbytes
    rw [decode_form h (p := none) hbytes]
    simp only [Option.map_none, reduceCtorEq, false_iff, PlainBase]
    exact fun hplain => hbase.elim hplain.1 hplain.2
  · rw [if_neg hbase] at hbytes
    rw [decode_form h (p := some _) hbytes]
    simp only [Option.map_some, true_iff, PlainBase]
    exact not_or.mp hbase

/-- The memory forms of **`:mov`**. -/
theorem decode_assembleMovMem (h : Form opcode form) (reg : Reg64) (displacement : ℤ)
    (base : Reg64) :
    decode (assembleMovMem opcode reg displacement base) =
      some (form reg (.mem ⟨.reg base, none, word displacement⟩)) ↔
      MovEncodable displacement base := by
  rw [assembleMovMem, MovEncodable]
  split_ifs with h₀ h₈
  · subst h₀
    exact decode_disp0 h reg base
  · have hbytes := takeModrm_disp8_sib (baseRex reg base) rfl (registerNumber_lt reg) base
      displacement
    rw [basePlace_baseRex, bmod_of_signedByte (by norm_num) (by norm_num) h₈] at hbytes
    simp only [h₈, true_or, iff_true]
    exact decode_form h (p := some _) hbytes
  · have hbytes := takeModrm_disp32 (baseRex reg base) (registerNumber_lt reg) base
      displacement
    rw [basePlace_baseRex] at hbytes
    rw [or_iff_right h₈, ← bmod_eq_word_iff]
    show decode (prefixByte reg base :: opcode ::
      makeModrmByte 2 (registerNumber reg) (registerNumber base) :: emitRaw displacement) = _ ↔ _
    by_cases h₄ : registerNumber base = 4
    · rw [if_pos h₄] at hbytes
      rw [decode_form h (p := none) hbytes]
      simp [h₄]
    · rw [if_neg h₄] at hbytes
      rw [decode_form h (p := some _) hbytes, Option.map_some, Option.some.injEq,
        (h.injective reg).eq_iff]
      simp [h₄]

end

/-- The forms of **`:mov`** to memory with the base `:rsp`. -/
theorem decode_assembleMovRsp (reg : Reg64) (displacement : ℤ) :
    decode (assembleMovRsp reg displacement) =
      some ⟨.mov, .reg reg, .mem ⟨.reg .rsp, none, word displacement⟩⟩ ↔
      fits32 displacement = true := by
  have hsib : ∀ {mod bytes}, mod < 3 → takeModrm (baseRex reg .rsp)
      (makeModrmByte mod (registerNumber reg) (registerNumber .rsp) :: 0x24 :: bytes) =
        (takeSigned (if mod = 0 then 0 else if mod = 1 then 1 else 4) bytes).map
          fun (disp, bytes) => (registerNumber reg, .mem ⟨.reg .rsp, none, disp⟩, bytes) := by
    intro mod bytes hmod
    rw [takeModrm_of_takeBase hmod (registerNumber_lt reg) (takeBase_sib rfl rfl bytes)]
    simp only [basePlace_baseRex]
  have hform : ∀ {mod n bytes}, mod < 3 →
      takeSigned (if mod = 0 then 0 else if mod = 1 then 1 else 4) bytes = some (n, []) →
      decode (prefixByte reg .rsp :: 0x89 ::
        makeModrmByte mod (registerNumber reg) (registerNumber .rsp) :: 0x24 :: bytes) =
          some ⟨.mov, .reg reg, .mem ⟨.reg .rsp, none, n⟩⟩ := by
    intro mod n bytes hmod hbytes
    exact decode_form form_store (p := some _) (by rw [hsib hmod, hbytes]; rfl)
  rw [assembleMovRsp]
  split_ifs with h₀ h₈
  · subst h₀
    rw [hform (n := 0) (by norm_num) rfl]
    simp [fits32, word, signedByte]
  · have hbytes := takeSigned_rawBytes 1 displacement []
    rw [bmod_of_signedByte (by norm_num) (by norm_num) h₈] at hbytes
    exact iff_of_true (hform (show 1 < 3 by norm_num) hbytes) (fits32_of_signedByte h₈)
  · have hbytes := takeSigned_rawBytes 4 displacement []
    rw [List.append_nil] at hbytes
    show decode (prefixByte reg .rsp :: 0x89 ::
      makeModrmByte 2 (registerNumber reg) (registerNumber .rsp) :: 0x24 :: rawBytes 4 displacement)
        = _ ↔ _
    rw [hform (show 2 < 3 by norm_num) hbytes, ← bmod_eq_word_iff]
    simp

/-- **`:mov`** of an immediate. -/
theorem decode_assembleMov_imm {n : ℤ} {reg2 : Reg64} {bytes : List ℕ}
    (h : assembleMov (.int n) (.reg64 reg2) = some bytes) :
    decode bytes = some ⟨.mov, .imm (word n), .reg reg2⟩ := by
  simp only [assembleMov] at h
  split_ifs at h with h₃₂ h₆₄
  · cases h
    have w : WideOpcode 0xc7 := ⟨fun _ _ => rfl, by decide⟩
    have hd := decode_immReg (k := 4) w (fun _ _ => rfl) (takeRex_prefixByte1 reg2)
      (show 0 < 8 by norm_num) rfl n reg2
    rw [register_registerNumber, bmod_of_signedByte (by norm_num) (by norm_num) h₃₂] at hd
    exact hd
  · cases h
    have hbytes := takeSigned_rawBytes 8 n []
    rw [List.append_nil] at hbytes
    have hopcode : decodeOpcode ⟨true, false, false, extendedRegisterP reg2⟩
        ((0xb8 + registerNumber reg2) :: emitRawQword n) =
          immToReg .mov 8 (register (extendedRegisterP reg2) (registerNumber reg2))
            (emitRawQword n) := by
      cases reg2 <;> rfl
    rw [List.cons_append, List.cons_append, List.nil_append, decode, takeRex_prefixByte1]
    show complete (decodeOpcode ⟨true, false, false, extendedRegisterP reg2⟩
      ((0xb8 + registerNumber reg2) :: emitRawQword n)) = _
    rw [hopcode, register_registerNumber, immToReg, emitRawQword, hbytes]
    rfl

/-! ## The stack -/

theorem decode_stack {opcode : ℕ} (h : opcode / 16 ≠ 4) (bytes : List ℕ) :
    decode (opcode :: bytes) =
      complete (decodeStack ⟨false, false, false, false⟩ opcode bytes) := by
  simp only [decode, takeRex, if_neg h, decodeOpcode]
  cases decodeStack ⟨false, false, false, false⟩ opcode bytes <;> rfl

/-- The register forms of **`:push`** and **`:pop`**. -/
theorem decode_assembleStackReg (reg1 : Reg64) :
    decode (assembleStackReg 0x50 reg1) = some ⟨.push, .reg reg1, .none⟩ ∧
    decode (assembleStackReg 0x58 reg1) = some ⟨.pop, .reg reg1, .none⟩ := by
  cases reg1 <;> exact ⟨rfl, rfl⟩

theorem basePlace_eq_iff (base : Reg64) (disp : ℤ) :
    basePlace ⟨false, false, false, false⟩ base disp = .mem ⟨.reg base, none, disp⟩ ↔
      extendedRegisterP base = false := by
  simp [basePlace, register_eq_iff]

theorem decode_pop_mem (base : Reg64) :
    decode [0x8f, makeModrmByte 0 0 (registerNumber base)] =
      some ⟨.pop, .mem ⟨.reg base, none, 0⟩, .none⟩ ↔
      extendedRegisterP base = false ∧ PlainBase base := by
  rw [decode_stack (by norm_num)]
  show complete (stackRm .pop 0 _ _) = _ ↔ _
  rw [stackRm, takeModrm_disp0 _ (by norm_num)]
  by_cases hbase : registerNumber base = 4 ∨ registerNumber base = 5
  · rw [if_pos hbase]
    have hplain : ¬ PlainBase base := fun h => hbase.elim h.1 h.2
    simp [complete, hplain]
  · rw [if_neg hbase]
    have hplain : PlainBase base := not_or.mp hbase
    simp [complete, hplain, basePlace_eq_iff]

theorem decode_stack_disp8 {mnemonic : Mnemonic} {opcode field : ℕ} (hrex : opcode / 16 ≠ 4)
    (hopcode : ∀ rex bytes, decodeStack rex opcode bytes = stackRm mnemonic field rex bytes)
    (hfield : field < 8) {displacement : ℤ} (h₈ : signedByte 8 displacement = true)
    (base : Reg64) :
    decode [opcode, makeModrmByte 1 field (registerNumber base), ldb8 0 displacement] =
      some ⟨mnemonic, .mem ⟨.reg base, none, word displacement⟩, .none⟩ ↔
      extendedRegisterP base = false ∧ registerNumber base ≠ 4 := by
  rw [decode_stack hrex, hopcode, stackRm, takeModrm_disp8 _ hfield,
    bmod_of_signedByte (by norm_num) (by norm_num) h₈]
  by_cases h₄ : registerNumber base = 4
  · rw [if_pos h₄]
    simp [complete, h₄]
  · rw [if_neg h₄]
    simp [complete, h₄, basePlace_eq_iff]

theorem decode_push_disp32 {displacement : ℤ} (h₃₂ : signedByte 32 displacement = true)
    (base : Reg64) :
    decode (0xff :: makeModrmByte 2 6 (registerNumber base) :: emitRaw displacement) =
      some ⟨.push, .mem ⟨.reg base, none, word displacement⟩, .none⟩ ↔
      extendedRegisterP base = false ∧ registerNumber base ≠ 4 := by
  rw [decode_stack (by norm_num)]
  show complete (stackRm .push 6 _ _) = _ ↔ _
  rw [stackRm, takeModrm_disp32 _ (by norm_num),
    bmod_of_signedByte (by norm_num) (by norm_num) h₃₂]
  by_cases h₄ : registerNumber base = 4
  · rw [if_pos h₄]
    simp [complete, h₄]
  · rw [if_neg h₄]
    simp [complete, h₄, basePlace_eq_iff]

theorem decode_assemblePush_imm {n : ℤ} {bytes : List ℕ}
    (h : assemblePush (.int n) = some bytes) :
    decode bytes = some ⟨.push, .imm (word n), .none⟩ := by
  simp only [assemblePush] at h
  split_ifs at h with h₈ h₃₂
  · cases h
    have hbytes := takeSigned_rawBytes 1 n []
    rw [bmod_of_signedByte (by norm_num) (by norm_num) h₈] at hbytes
    rw [decode_stack (by norm_num)]
    show complete (pushImm 1 (rawBytes 1 n ++ [])) = _
    rw [pushImm, hbytes]
    rfl
  · cases h
    have hbytes := takeSigned_rawBytes 4 n []
    rw [bmod_of_signedByte (by norm_num) (by norm_num) h₃₂, List.append_nil] at hbytes
    rw [List.cons_append, List.nil_append, decode_stack (by norm_num)]
    show complete (pushImm 4 (rawBytes 4 n)) = _
    rw [pushImm, hbytes]
    rfl

/-! ## All instructions -/

/-- The instructions that are emitted right, if they are accepted. -/
def Encodable (i : Instruction) : Prop :=
  match i.mnemonic, i.operand1, i.operand2 with
  | .and, .reg64 reg1, .reg64 reg2 | .cmp, .reg64 reg1, .reg64 reg2
  | .test, .reg64 reg1, .reg64 reg2 =>
    extendedRegisterP reg1 = false ∧ extendedRegisterP reg2 = false
  | .and, .int _, .reg64 reg2 | .sar, .int _, .reg64 reg2 | .sar, .reg64 reg2, .null =>
    extendedRegisterP reg2 = false
  | .test, .int n, .reg64 reg2 => extendedRegisterP reg2 = false ∧ n < 2 ^ 31
  | .cmp, .reg64 reg1, .memDisp _ base =>
    extendedRegisterP reg1 = extendedRegisterP base ∧
      (registerNumber reg1 = 4 ↔ registerNumber base = 4)
  | .cmovg, .reg64 reg1, .reg64 reg2 | .cmovl, .reg64 reg1, .reg64 reg2 =>
    extendedRegisterP reg1 = extendedRegisterP reg2
  | .mov, .mem base, .reg64 _ => PlainBase base
  | .mov, .memDisp displacement base, .reg64 _ => MovEncodable displacement base
  | .mov, .reg64 reg1, .mem base => PlainBase base ∨ base = .rsp ∧ reg1 = .rax
  | .mov, .reg64 _, .memDisp displacement base =>
    if base = .rsp then fits32 displacement = true else MovEncodable displacement base
  | .pop, .mem base, _ => extendedRegisterP base = false ∧ PlainBase base
  | .pop, .memDisp _ base, _ | .push, .memDisp _ base, _ =>
    extendedRegisterP base = false ∧ registerNumber base ≠ 4
  | _, _, _ => True

/-- **`:mov`.** -/
theorem decode_assembleMov_iff {operand1 operand2 : Operand} {bytes : List ℕ}
    (h : assembleMov operand1 operand2 = some bytes) :
    decode bytes = some (Instruction.meaning ⟨.mov, operand1, operand2⟩) ↔
      Encodable ⟨.mov, operand1, operand2⟩ := by
  cases operand1 with
  | null => cases h
  | int n =>
    cases operand2 with
    | reg64 reg2 => exact iff_of_true (decode_assembleMov_imm h) trivial
    | _ => cases h
  | mem base =>
    cases operand2 with
    | reg64 reg2 =>
      cases h
      exact decode_disp0 form_load reg2 base
    | _ => cases h
  | memDisp displacement base =>
    cases operand2 with
    | reg64 reg2 =>
      cases h
      exact decode_assembleMovMem form_load reg2 displacement base
    | _ => cases h
  | reg64 reg1 =>
    cases operand2 with
    | null => cases h
    | int n => cases h
    | reg64 reg2 =>
      cases h
      exact iff_of_true
        (decode_assembleRegReg ⟨fun _ _ => rfl, by decide⟩ (fun _ _ => rfl) reg1 reg2) trivial
    | mem base =>
      simp only [assembleMov] at h
      split_ifs at h with hrsp
      · cases h
        obtain ⟨rfl, rfl⟩ := hrsp
        exact iff_of_true rfl (.inr ⟨rfl, rfl⟩)
      · cases h
        refine (decode_disp0 form_store reg1 base).trans ?_
        exact ⟨.inl, fun h => h.resolve_right hrsp⟩
    | memDisp displacement base =>
      simp only [assembleMov] at h
      simp only [Encodable]
      split_ifs at h ⊢ with hrsp
      · cases h
        subst hrsp
        exact decode_assembleMovRsp reg1 displacement
      · cases h
        exact decode_assembleMovMem form_store reg1 displacement base

theorem decode_assembleAnd_iff {operand1 operand2 : Operand} {bytes : List ℕ}
    (h : assembleAnd operand1 operand2 = some bytes) :
    decode bytes = some (Instruction.meaning ⟨.and, operand1, operand2⟩) ↔
      Encodable ⟨.and, operand1, operand2⟩ := by
  cases operand1 with
  | reg64 reg1 =>
    cases operand2 with
    | reg64 reg2 =>
      cases h
      exact decode_assembleLowRegReg ⟨fun _ _ => rfl, by decide⟩ (fun _ _ => rfl) reg1 reg2
    | _ => cases h
  | int n =>
    cases operand2 with
    | reg64 reg2 => exact decode_assembleAnd_imm h
    | _ => cases h
  | _ => cases h

theorem decode_assembleCmp_iff {operand1 operand2 : Operand} {bytes : List ℕ}
    (h : assembleCmp operand1 operand2 = some bytes) :
    decode bytes = some (Instruction.meaning ⟨.cmp, operand1, operand2⟩) ↔
      Encodable ⟨.cmp, operand1, operand2⟩ := by
  cases operand1 with
  | reg64 reg1 =>
    cases operand2 with
    | reg64 reg2 =>
      cases h
      exact decode_assembleLowRegReg ⟨fun _ _ => rfl, by decide⟩ (fun _ _ => rfl) reg1 reg2
    | memDisp displacement base => exact decode_assembleCmp_mem h
    | _ => cases h
  | int n =>
    cases operand2 with
    | reg64 reg2 => exact iff_of_true (decode_assembleCmp_imm h) trivial
    | _ => cases h
  | _ => cases h

theorem decode_assembleTest_iff {operand1 operand2 : Operand} {bytes : List ℕ}
    (h : assembleTest operand1 operand2 = some bytes) :
    decode bytes = some (Instruction.meaning ⟨.test, operand1, operand2⟩) ↔
      Encodable ⟨.test, operand1, operand2⟩ := by
  cases operand1 with
  | reg64 reg1 =>
    cases operand2 with
    | reg64 reg2 =>
      cases h
      exact decode_assembleLowRegReg ⟨fun _ _ => rfl, by decide⟩ (fun _ _ => rfl) reg1 reg2
    | _ => cases h
  | int n =>
    cases operand2 with
    | reg64 reg2 => exact decode_assembleTest_imm h
    | _ => cases h
  | _ => cases h

theorem decode_assembleSar_iff {operand1 operand2 : Operand} {bytes : List ℕ}
    (h : assembleSar operand1 operand2 = some bytes) :
    decode bytes = some (Instruction.meaning ⟨.sar, operand1, operand2⟩) ↔
      Encodable ⟨.sar, operand1, operand2⟩ := by
  cases operand1 with
  | reg64 reg1 =>
    cases operand2 with
    | null => exact decode_assembleSar (n := 1) h
    | _ => cases h
  | int n =>
    cases operand2 with
    | reg64 reg2 => exact decode_assembleSar h
    | _ => cases h
  | _ => cases operand2 <;> cases h

theorem decode_assembleShl_iff {operand1 operand2 : Operand} {bytes : List ℕ}
    (h : assembleShl operand1 operand2 = some bytes) :
    decode bytes = some (Instruction.meaning ⟨.shl, operand1, operand2⟩) := by
  cases operand1 with
  | reg64 reg1 =>
    cases operand2 with
    | null => exact decode_assembleShl (n := 1) h
    | _ => cases h
  | int n =>
    cases operand2 with
    | reg64 reg2 => exact decode_assembleShl h
    | _ => cases h
  | _ => cases h

theorem decode_assemblePop_iff {operand1 : Operand} (operand2 : Operand) {bytes : List ℕ}
    (h : assemblePop operand1 = some bytes) :
    decode bytes = some (Instruction.meaning ⟨.pop, operand1, operand2⟩) ↔
      Encodable ⟨.pop, operand1, operand2⟩ := by
  cases operand1 with
  | null => cases h
  | int n => cases h
  | reg64 reg1 =>
    cases h
    exact iff_of_true (decode_assembleStackReg reg1).2 trivial
  | mem base =>
    cases h
    exact decode_pop_mem base
  | memDisp displacement base =>
    simp only [assemblePop] at h
    split_ifs at h with h₈
    cases h
    exact decode_stack_disp8 (by norm_num) (fun _ _ => rfl) (by norm_num) h₈ base

theorem decode_assemblePush_iff {operand1 : Operand} (operand2 : Operand) {bytes : List ℕ}
    (h : assemblePush operand1 = some bytes) :
    decode bytes = some (Instruction.meaning ⟨.push, operand1, operand2⟩) ↔
      Encodable ⟨.push, operand1, operand2⟩ := by
  cases operand1 with
  | null => cases h
  | mem base => cases h
  | reg64 reg1 =>
    cases h
    exact iff_of_true (decode_assembleStackReg reg1).1 trivial
  | int n => exact iff_of_true (decode_assemblePush_imm h) trivial
  | memDisp displacement base =>
    simp only [assemblePush] at h
    split_ifs at h with h₈ h₃₂
    · cases h
      exact decode_stack_disp8 (by norm_num) (fun _ _ => rfl) (by norm_num) h₈ base
    · cases h
      exact decode_push_disp32 h₃₂ base

theorem operands_assembleCmov {opcode : ℕ} {operand1 operand2 : Operand} {bytes : List ℕ}
    (h : assembleCmov opcode operand1 operand2 = some bytes) :
    ∃ reg1 reg2, operand1 = .reg64 reg1 ∧ operand2 = .reg64 reg2 := by
  cases operand1 with
  | reg64 reg1 =>
    cases operand2 with
    | reg64 reg2 => exact ⟨reg1, reg2, rfl, rfl⟩
    | _ => cases h
  | _ => cases h

end Xcl.Assembler
