import Mathlib.Data.Nat.Basic
import Mathlib.Order.Basic
import Xcl.BitVectors.Simple
import Xcl.Lib.Loops

/-!
# Comparing simple bit vectors

`simple-bit-vector-equal` compares words, the unused bits of the last word included. A new vector
has them all zero, and the operations that store whole words decide what becomes of them.

* **`comparesBits_iff`**: the comparison is right when the unused bits follow from the others;
* **`comparesBits_run`**: the comparison in every state of a run.
-/

namespace Xcl.BitVectors

open PackedBits Loops

/-! ## Bits -/

theorem and_thirtyOne (n : ℕ) : n &&& 31 = n % 32 := Nat.and_two_pow_sub_one_eq_mod n 5

theorem shiftRight_five (n : ℕ) : n >>> 5 = n / 32 := Nat.shiftRight_eq_div_pow n 5

theorem le_dataLength (capacity : ℕ) : capacity ≤ dataLength capacity * 32 := by
  simp only [dataLength, and_thirtyOne, shiftRight_five]
  split_ifs <;> omega

namespace SimpleBitVector

variable (v : SimpleBitVector) (i j : ℕ) (b : Bool)

theorem inlineGetbit_eq : v.inlineGetbit i = get v.data i := by
  simp only [inlineGetbit, and_thirtyOne, shiftRight_five]
  exact and_one_shiftLeft_bne _ (Nat.mod_lt i (by decide))

theorem inlineSetbit_data : (v.inlineSetbit i b).data = put v.data i b := by
  simp only [inlineSetbit, and_thirtyOne, shiftRight_five]
  rfl

variable {v} {i}

theorem lt_length_mul (h : i < v.capacity) : i < v.data.length * 32 := by
  rw [v.length_data]
  exact h.trans_le (le_dataLength v.capacity)

theorem inlineGetbit_inlineSetbit (h : i < v.capacity) :
    (v.inlineSetbit i b).inlineGetbit j = if j = i then b else v.inlineGetbit j := by
  simp only [inlineGetbit_eq, inlineSetbit_data]
  exact get_put (lt_length_mul h)

end SimpleBitVector

/-! ## The comparison -/

/-- The same length, and the same bit at every index below it. -/
def SameBits (x y : SimpleBitVector) : Prop :=
  x.capacity = y.capacity ∧ ∀ i < x.capacity, x.inlineGetbit i = y.inlineGetbit i

def SameUnused (x y : SimpleBitVector) : Prop :=
  ∀ i, x.capacity ≤ i → x.inlineGetbit i = y.inlineGetbit i

/-- `simple-bit-vector-equal` compares the bits. -/
def ComparesBits (h : Heap) : Prop :=
  ∀ v1 v2 x1 x2, h[v1]? = some x1 → h[v2]? = some x2 →
    (simpleBitVectorEqual h v1 v2 = .ok true ↔ SameBits x1 x2)

theorem data_eq_iff {x y : SimpleBitVector} (h : x.capacity = y.capacity) :
    x.data = y.data ↔ ∀ i, x.inlineGetbit i = y.inlineGetbit i := by
  have hlength : x.data.length = y.data.length := by rw [x.length_data, y.length_data, h]
  simp only [SimpleBitVector.inlineGetbit_eq]
  rw [PackedBits.ext_iff hlength]
  refine ⟨fun hget i => ?_, fun hget i _ => hget i⟩
  by_cases hi : i < x.data.length * 32
  · exact hget i hi
  · rw [get_of_le (not_lt.mp hi), get_of_le (hlength ▸ not_lt.mp hi)]

theorem simpleBitVectorEqual_eq {h : Heap} {v1 v2 : Reference} {x1 x2 : SimpleBitVector}
    (h1 : h[v1]? = some x1) (h2 : h[v2]? = some x2) :
    simpleBitVectorEqual h v1 v2 = .ok true ↔ SameBits x1 x2 ∧ (v1 = v2 ∨ SameUnused x1 x2) := by
  simp only [simpleBitVectorEqual, checkSimpleBitVector, h1, h2, Option.elim_some, pure_bind]
  by_cases hv : v1 = v2
  · subst hv
    obtain rfl : x1 = x2 := Option.some.inj (h1.symm.trans h2)
    simp only [if_true, true_or, and_true]
    exact iff_of_true rfl ⟨rfl, fun _ _ => rfl⟩
  by_cases hcapacity : x1.capacity = x2.capacity
  · rw [if_neg hv, if_neg (by rw [hcapacity]; simp)]
    have hdata : (x1.data == x2.data) = true ↔ SameBits x1 x2 ∧ SameUnused x1 x2 := by
      rw [beq_iff_eq, data_eq_iff hcapacity]
      refine ⟨fun hall => ⟨⟨hcapacity, fun i _ => hall i⟩, fun i _ => hall i⟩, fun hall i => ?_⟩
      by_cases hi : i < x1.capacity
      · exact hall.1.2 i hi
      · exact hall.2 i (not_lt.mp hi)
    rw [or_iff_right hv, ← hdata]
    exact ⟨Except.ok.inj, congrArg Except.ok⟩
  · rw [if_neg hv, if_pos (Ne.symm hcapacity)]
    exact iff_of_false nofun fun hall => hcapacity hall.1.1

/-- **The comparison is right when the unused bits follow from the others.** -/
theorem comparesBits_iff {h : Heap} :
    ComparesBits h ↔ ∀ x1 ∈ h, ∀ x2 ∈ h, SameBits x1 x2 → SameUnused x1 x2 := by
  constructor
  · intro hcompares x1 hx1 x2 hx2 hsame
    obtain ⟨v1, h1⟩ := List.mem_iff_getElem?.mp hx1
    obtain ⟨v2, h2⟩ := List.mem_iff_getElem?.mp hx2
    have heq := (hcompares v1 v2 x1 x2 h1 h2).mpr hsame
    rcases ((simpleBitVectorEqual_eq h1 h2).mp heq).2 with hv | hunused
    · rw [hv, h2] at h1
      obtain rfl := Option.some.inj h1
      exact fun _ _ => rfl
    · exact hunused
  · intro hunused v1 v2 x1 x2 h1 h2
    rw [simpleBitVectorEqual_eq h1 h2]
    exact and_iff_left_of_imp fun hsame =>
      Or.inr (hunused x1 (List.mem_of_getElem? h1) x2 (List.mem_of_getElem? h2) hsame)

/-! ## Unused bits -/

namespace SimpleBitVector

/-- The unused bits are zero. -/
def Clear (v : SimpleBitVector) : Prop := ∀ i, v.capacity ≤ i → v.inlineGetbit i = false

variable {v : SimpleBitVector}

theorem clear_of_mod (h : v.capacity % 32 = 0) : v.Clear := by
  intro i hi
  rw [inlineGetbit_eq]
  apply get_of_le
  have hlength : dataLength v.capacity * 32 = v.capacity := by
    simp only [dataLength, and_thirtyOne, shiftRight_five]
    split_ifs <;> omega
  rwa [v.length_data, hlength]

theorem clear_new (capacity : ℕ) : (new capacity).Clear := fun i _ => by
  rw [inlineGetbit_eq]
  exact get_replicate_zero _ i

theorem clear_fill_false : (v.fill false).Clear := fun i _ => by
  rw [inlineGetbit_eq]
  exact get_replicate_zero _ i

theorem Clear.inlineSetbit (h : v.Clear) {i : ℕ} (hi : i < v.capacity) (b : Bool) :
    (v.inlineSetbit i b).Clear := fun j hj => by
  rw [inlineGetbit_inlineSetbit _ _ hi, if_neg (Nat.ne_of_gt (hi.trans_le hj))]
  exact h j hj

theorem clear_reverse : v.reverse.Clear := by
  unfold reverse
  suffices hloop : ∀ (l : List ℕ) (result : SimpleBitVector), (∀ i ∈ l, i < v.capacity) →
      result.capacity = v.capacity → result.Clear → (l.foldl (fun result i =>
        result.inlineSetbit i (v.inlineGetbit (v.capacity - 1 - i))) result).Clear from
    hloop _ _ (fun i hi => List.mem_range.mp hi) rfl (clear_new v.capacity)
  intro l
  induction l with
  | nil => exact fun _ _ _ h => h
  | cons i l ih =>
    intro result hl hcapacity hclear
    refine ih _ (fun j hj => hl j (List.mem_cons_of_mem _ hj)) hcapacity ?_
    exact hclear.inlineSetbit (hcapacity ▸ hl i List.mem_cons_self) _

theorem Clear.nreverseLoop (h : v.Clear) {i j : ℕ} (hj : j < v.capacity) :
    (nreverseLoop v i j).Clear := by
  fun_induction SimpleBitVector.nreverseLoop v i j with
  | case1 v i j hij temp v' ih =>
    have hv' : v'.Clear := h.inlineSetbit (hij.trans hj) _
    exact ih (hv'.inlineSetbit hj _) (Nat.lt_of_le_of_lt (Nat.sub_le j 1) hj)
  | case2 => exact h

theorem Clear.nreverse (h : v.Clear) : v.nreverse.Clear := by
  unfold SimpleBitVector.nreverse
  split_ifs with hpos
  · exact h.nreverseLoop (Nat.sub_one_lt_of_lt hpos)
  · exact h

/-! ## Copies -/

theorem getLsbD_copyBytes {n : ℕ} (hn : n ≤ 4) (source target : BitVec 32) {j : ℕ}
    (hj : j < 32) :
    (copyBytes n source target).getLsbD j =
      if j < 8 * n then source.getLsbD j else target.getLsbD j := by
  have hmask : (BitVec.ofNat 32 (1 <<< (8 * n) - 1)).getLsbD j = decide (j < 8 * n) := by
    rw [BitVec.getLsbD_ofNat, Nat.one_shiftLeft, Nat.testBit_two_pow_sub_one]
    simp [hj]
  simp only [copyBytes, BitVec.getLsbD_or, BitVec.getLsbD_and, BitVec.getLsbD_not, hmask]
  split_ifs with h <;> simp [h, hj]

theorem get_memcpy {n : ℕ} {targets sources : List (BitVec 32)}
    (h : targets.length = sources.length) (i : ℕ) :
    get (memcpy n targets sources) i = if i < 8 * n then get sources i else get targets i := by
  fun_induction memcpy n targets sources generalizing i with
  | case1 n target targets source sources ih =>
    simp only [get_cons, ih (by simpa using h)]
    by_cases hi : i < 32
    · rw [if_pos hi, if_pos hi, if_pos hi, getLsbD_copyBytes (Nat.min_le_right n 4) _ _ hi]
      -- the bytes of this word
      have hmin : i < 8 * min n 4 ↔ i < 8 * n := by omega
      simp only [hmin]
    · rw [if_neg hi, if_neg hi, if_neg hi]
      have hrest : i - 32 < 8 * (n - 4) ↔ i < 8 * n := by omega
      simp only [hrest]
  | case2 n targets sources hno =>
    cases targets with
    | nil =>
      obtain rfl := List.eq_nil_of_length_eq_zero h.symm
      exact (ite_self _).symm
    | cons target targets =>
      obtain ⟨source, sources, rfl⟩ := List.exists_cons_of_length_eq_add_one h.symm
      exact absurd rfl (hno target targets source sources rfl)

theorem copy_data (v : SimpleBitVector) :
    ∃ n, v.copy.data = memcpy n (new v.capacity).data v.data := ⟨_, rfl⟩

theorem Clear.copy (h : v.Clear) : v.copy.Clear := fun i hi => by
  have hlength : (new v.capacity).data.length = v.data.length := by
    rw [(new v.capacity).length_data, v.length_data]
    rfl
  obtain ⟨n, hdata⟩ := v.copy_data
  rw [inlineGetbit_eq, hdata, get_memcpy hlength]
  split_ifs
  · rw [← inlineGetbit_eq]
    exact h i hi
  · exact get_replicate_zero _ i

end SimpleBitVector

/-! ## The operations on whole words -/

/-- What a bit-wise operation does to a bit. -/
def BitOp.bit : BitOp → Bool → Bool → Bool
  | .and, x, y => x && y
  | .andc1, x, y => !x && y
  | .andc2, x, y => x && !y
  | .eqv, x, y => !(x ^^ y)
  | .ior, x, y => x || y
  | .nand, x, y => !(x && y)
  | .nor, x, y => !(x || y)
  | .orc1, x, y => !x || y
  | .orc2, x, y => x || !y
  | .xor, x, y => x ^^ y

theorem BitOp.getLsbD_word (op : BitOp) (x y : BitVec 32) (j : ℕ) (hj : j < 32) :
    (op.word x y).getLsbD j = op.bit (x.getLsbD j) (y.getLsbD j) := by
  cases op <;> simp [BitOp.word, BitOp.bit, hj]

/-- The vectors into whose unused bits an operation stores ones when those of its arguments are
zero. -/
def Op.complemented : Op → List Reference
  | .simpleBitVectorFill v value => if value = 1 then [v] else []
  | .bitNot _ v2 => [v2]
  | .bitOp op _ _ v3 => if op.bit false false then [v3] else []
  | _ => []

/-- A function that signals no error stores ones only where no bit is unused. -/
def Whole (h : Heap) (op : Op) : Prop :=
  ∀ h', step h op = .ok h' → ∀ v ∈ op.complemented, ∀ x, h[v]? = some x → x.capacity % 32 = 0

/-- The steps of a run all satisfy `Whole`. -/
def WholeRun : Heap → List Op → Prop
  | _, [] => True
  | h, op :: ops => Whole h op ∧ WholeRun ((step h op).toOption.getD h) ops

variable {h h' : Heap}

theorem clear_append (hclear : ∀ x ∈ h, x.Clear) {x : SimpleBitVector} (hx : x.Clear) :
    ∀ y ∈ h ++ [x], y.Clear := by
  intro y hy
  rcases List.mem_append.mp hy with hy | hy
  · exact hclear y hy
  · rwa [List.mem_singleton.mp hy]

theorem clear_set (hclear : ∀ x ∈ h, x.Clear) {x : SimpleBitVector} (hx : x.Clear)
    (v : Reference) :
    ∀ y ∈ h.set v x, y.Clear := by
  intro y hy
  rcases List.mem_or_eq_of_mem_set hy with hy | rfl
  · exact hclear y hy
  · exact hx

theorem checkSimpleBitVector_eq_ok {v : Reference} {x : SimpleBitVector} :
    checkSimpleBitVector h v = .ok x ↔ h[v]? = some x := by
  unfold checkSimpleBitVector
  cases h[v]? with
  | none => exact iff_of_false nofun nofun
  | some y => exact ⟨fun heq => congrArg some (Except.ok.inj heq),
      fun heq => congrArg Except.ok (Option.some.inj heq)⟩

theorem clear_complement {v1 v2 : Reference} (hwhole : Whole h (.bitNot v1 v2))
    (hclear : ∀ x ∈ h, x.Clear) (hstep : complement h v1 v2 = .ok h') : ∀ x ∈ h', x.Clear := by
  obtain ⟨x1, -, hrest⟩ := bind_eq_ok.mp hstep
  obtain ⟨x2, h2, hrest⟩ := bind_eq_ok.mp hrest
  have hmod := hwhole h' hstep v2 List.mem_cons_self x2 (checkSimpleBitVector_eq_ok.mp h2)
  split_ifs at hrest
  cases hrest
  refine clear_set hclear ?_ v2
  exact SimpleBitVector.clear_of_mod hmod

theorem clear_combine {op : BitOp} {v1 v2 v3 : Reference} (hwhole : Whole h (.bitOp op v1 v2 v3))
    (hclear : ∀ x ∈ h, x.Clear) (hstep : combine h op v1 v2 v3 = .ok h') : ∀ x ∈ h', x.Clear := by
  obtain ⟨x1, h1, hrest⟩ := bind_eq_ok.mp hstep
  obtain ⟨x2, h2, hrest⟩ := bind_eq_ok.mp hrest
  obtain ⟨x3, h3, hrest⟩ := bind_eq_ok.mp hrest
  rw [checkSimpleBitVector_eq_ok] at h1 h2 h3
  split_ifs at hrest with hlength
  cases hrest
  refine clear_set hclear ?_ v3
  by_cases hbit : op.bit false false = true
  · refine SimpleBitVector.clear_of_mod (hwhole _ hstep v3 ?_ x3 h3)
    simp [Op.complemented, hbit]
  · -- the unused bits of the result are computed from zeros
    intro i hi
    have hx1 := hclear x1 (List.mem_of_getElem? h1) i (hlength.1.trans_le hi)
    have hx2 := hclear x2 (List.mem_of_getElem? h2) i (hlength.2.trans_le hi)
    rw [SimpleBitVector.inlineGetbit_eq] at hx1 hx2 ⊢
    have hl1 : x1.data.length = dataLength x3.capacity := by rw [x1.length_data, hlength.1]
    have hl2 : x2.data.length = dataLength x3.capacity := by rw [x2.length_data, hlength.2]
    by_cases hi' : i < dataLength x3.capacity * 32
    · rw [get_zipWith op.getLsbD_word (hl1 ▸ hi') (hl2 ▸ hi'), hx1, hx2]
      exact Bool.eq_false_iff.mpr hbit
    · apply get_of_le
      rw [List.length_zipWith, hl1, hl2, Nat.min_self]
      exact not_lt.mp hi'

/-- **One step.** -/
theorem clear_step {op : Op} (hwhole : Whole h op) (hclear : ∀ x ∈ h, x.Clear)
    (hstep : step h op = .ok h') : ∀ x ∈ h', x.Clear := by
  cases op with
  | makeSimpleBitVector size =>
    simp only [step] at hstep
    split_ifs at hstep
    cases hstep
    exact clear_append hclear (SimpleBitVector.clear_new size)
  | setSbit1 v index value =>
    obtain ⟨x, hx, hrest⟩ := bind_eq_ok.mp hstep
    split_ifs at hrest with hindex
    obtain ⟨b, -, hrest⟩ := bind_eq_ok.mp hrest
    cases hrest
    have hx := hclear x (List.mem_of_getElem? (checkSimpleBitVector_eq_ok.mp hx))
    exact clear_set hclear (hx.inlineSetbit hindex b) v
  | simpleBitVectorFill v value =>
    obtain ⟨x, hx, hrest⟩ := bind_eq_ok.mp hstep
    obtain ⟨b, hb, hrest⟩ := bind_eq_ok.mp hrest
    cases hrest
    refine clear_set hclear ?_ v
    cases b with
    | false => exact SimpleBitVector.clear_fill_false
    | true =>
      have hvalue : value = 1 := by
        unfold checkBit at hb
        split_ifs at hb with h0 h1
        · cases hb
        · exact h1
      refine SimpleBitVector.clear_of_mod (v := x.fill true)
        (hwhole _ hstep v ?_ x (checkSimpleBitVector_eq_ok.mp hx))
      simp [Op.complemented, hvalue]
  | copySimpleBitVector v =>
    obtain ⟨x, hx, hrest⟩ := bind_eq_ok.mp hstep
    cases hrest
    exact clear_append hclear
      (hclear x (List.mem_of_getElem? (checkSimpleBitVector_eq_ok.mp hx))).copy
  | reverse v =>
    obtain ⟨x, -, hrest⟩ := bind_eq_ok.mp hstep
    cases hrest
    exact clear_append hclear SimpleBitVector.clear_reverse
  | nreverse v =>
    obtain ⟨x, hx, hrest⟩ := bind_eq_ok.mp hstep
    cases hrest
    exact clear_set hclear
      (hclear x (List.mem_of_getElem? (checkSimpleBitVector_eq_ok.mp hx))).nreverse v
  | bitNot v1 v2 => exact clear_complement hwhole hclear hstep
  | bitOp op v1 v2 v3 => exact clear_combine hwhole hclear hstep

/-- **A run.** -/
theorem clear_run {ops : List Op} (hwhole : WholeRun h ops) (hclear : ∀ x ∈ h, x.Clear) :
    ∀ x ∈ run h ops, x.Clear := by
  induction ops generalizing h with
  | nil => exact hclear
  | cons op ops ih =>
    have hnext : ∀ x ∈ (step h op).toOption.getD h, x.Clear := by
      cases hstep : step h op with
      | error => exact hclear
      | ok h' => exact clear_step hwhole.1 hclear hstep
    exact ih hwhole.2 hnext

/-- **`simple-bit-vector-equal` compares the bits in every state of a run in which ones are only
stored into the unused bits where there are none**; and in any state it does so exactly when no two
vectors differ in nothing but their unused bits. -/
theorem comparesBits_run (ops : List Op) :
    (WholeRun [] ops → ComparesBits (run [] ops)) ∧
      (ComparesBits (run [] ops) ↔
        ∀ x1 ∈ run [] ops, ∀ x2 ∈ run [] ops, SameBits x1 x2 → SameUnused x1 x2) := by
  refine ⟨fun hwhole => comparesBits_iff.mpr fun x1 hx1 x2 hx2 hsame i hi => ?_, comparesBits_iff⟩
  have hclear := clear_run hwhole nofun
  rw [hclear x1 hx1 i hi, hclear x2 hx2 i (hsame.1 ▸ hi)]

def filledAndSet : List Op :=
  [.makeSimpleBitVector 1, .makeSimpleBitVector 1, .simpleBitVectorFill 0 1, .setSbit1 1 0 1]

theorem not_comparesBits_filledAndSet : ¬ ∀ ops, ComparesBits (run [] ops) := by
  intro h
  have hsame : SameBits (SimpleBitVector.fill (.new 1) true)
      (SimpleBitVector.inlineSetbit (.new 1) 0 true) := ⟨rfl, by decide⟩
  exact absurd ((h filledAndSet 0 1 _ _ rfl rfl).mpr hsame) (by decide)

end Xcl.BitVectors
