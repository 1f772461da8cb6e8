import Xcl.X86.Condition

/-!
# Branch relaxation (`fix-jumps`)

The last pass of the compiler works on a vector of items: instructions that carry their size, and
raw byte vectors. Short jumps that do not reach their label are turned into long ones, which moves
the labels behind them, and so the pass repeats until a round changes nothing.

* `Item`, `Symbols`, `setLabels`, `relax`, `fixJumps`: the pass, round by round. A round in which
  a short jump names an unbound label signals an error;
* `Fixed`, **`fixJumps_correct`**: the pass ends, and the layout it leaves is consistent.
-/

namespace Xcl.P3

/-- An element of the instruction vector. An instruction is a vector of its kind, its size and
its data; `other` stands for the kinds that `fix-jumps` does not look at. -/
inductive Item
  | label (size : ℕ) (symbol : Label)
  | dead (size : ℕ)
  | jmpShort (size : ℕ) (test : Test) (label : Label)
  | jmp (size : ℕ) (test : Test) (label : Label)
  | other (size : ℕ)
  | bytes (data : List UInt8)
  deriving DecidableEq, Repr

/-- The bytes an item takes in the code vector. -/
def Item.length : Item → ℕ
  | .label _ _ | .dead _ => 0
  | .jmpShort size _ _ | .jmp size _ _ | .other size => size
  | .bytes data => data.length

/-- The global values of symbols; `none` is an unbound symbol. -/
abbrev Symbols := Label → Option ℤ

/-- The first loop of a round: each label's symbol is set to the length of the code before it. -/
def setLabels : List Item → ℕ → Symbols → Symbols
  | [], _, env => env
  | .label _ symbol :: code, length, env =>
    setLabels code length (Function.update env symbol (some length))
  | i :: code, length, env => setLabels code (length + i.length) env

/-- The size of the long jump with test `test`. -/
def longSize (test : Test) : ℕ := if test = .t then 5 else 6

/-- The second loop of a round, from position `here` on: the new code and whether it changed.
Reading the value of an unbound label is an error. -/
def relax (env : Symbols) : List Item → ℕ → Except Label (List Item × Bool)
  | [], _ => .ok ([], false)
  | .jmpShort size test label :: code, here =>
    match env label with
    | none => .error label
    | some value =>
      let displacement := value - (here + size : ℕ)
      if displacement < -128 ∨ displacement > 127 then
        (relax env code (here + longSize test)).map
          fun r => (.jmp (longSize test) test label :: r.1, true)
      else
        (relax env code (here + size)).map fun r => (.jmpShort size test label :: r.1, r.2)
  | i :: code, here => (relax env code (here + i.length)).map fun r => (i :: r.1, r.2)

/-- `fix-jumps`, stopped after `n` rounds: `none` when the loop has not ended by then. -/
def fixJumps : ℕ → List Item → Symbols → Option (Except Label (List Item × Symbols))
  | 0, _, _ => none
  | n + 1, code, env =>
    let env := setLabels code 0 env
    match relax env code 0 with
    | .error label => some (.error label)
    | .ok (code, true) => fixJumps n code env
    | .ok (code, false) => some (.ok (code, env))

/-! ## Offsets -/

/-- The sum of the sizes of the items before index `i`. -/
def offset (code : List Item) (i : ℕ) : ℕ := ((code.take i).map Item.length).sum

@[simp] theorem offset_zero (code : List Item) : offset code 0 = 0 := by simp [offset]

@[simp] theorem offset_cons_succ (x : Item) (code : List Item) (i : ℕ) :
    offset (x :: code) (i + 1) = x.length + offset code i := by simp [offset]

theorem setLabels_of_not_mem {code : List Item} {s : Label}
    (h : ∀ size, Item.label size s ∉ code) (n : ℕ) (env : Symbols) :
    setLabels code n env s = env s := by
  induction code generalizing n env with
  | nil => rfl
  | cons x code ih =>
    have hx : ∀ size, Item.label size s ≠ x := fun size he => h size (by simp [he])
    have ih := fun n env => ih (fun size hm => h size (List.mem_cons_of_mem _ hm)) n env
    cases x with
    | label size s' =>
      have hs : s ≠ s' := fun he => hx size (by rw [he])
      rw [setLabels, ih, Function.update_of_ne hs]
    | _ => rw [setLabels, ih]; simp

/-- **A label's symbol holds the offset of its last definition.** -/
theorem setLabels_eq_offset {code : List Item} {i size : ℕ} {s : Label}
    (hi : code[i]? = some (.label size s))
    (hlast : ∀ j size, i < j → code[j]? ≠ some (.label size s)) (n : ℕ) (env : Symbols) :
    setLabels code n env s = some ((n + offset code i : ℕ) : ℤ) := by
  induction code generalizing i n env with
  | nil => simp at hi
  | cons x code ih =>
    cases i with
    | zero =>
      obtain rfl : x = .label size s := by simpa using hi
      have hno : ∀ size, Item.label size s ∉ code := by
        intro size hm
        obtain ⟨j, hj⟩ := List.mem_iff_getElem?.mp hm
        exact hlast (j + 1) size (Nat.succ_pos j) (by simpa using hj)
      rw [setLabels, setLabels_of_not_mem hno]
      simp
    | succ i =>
      have ih := fun n env => ih (i := i) (by simpa using hi)
        (fun j size hj => by simpa using hlast (j + 1) size (by omega)) n env
      cases x with
      | label size' s' => rw [setLabels, ih, offset_cons_succ]; simp [Item.length]
      | _ => rw [setLabels, ih, offset_cons_succ, Nat.add_assoc]; simp

theorem setLabels_cons (x : Item) (code : List Item) (n : ℕ) (env : Symbols) :
    ∃ env', setLabels (x :: code) n env = setLabels code (n + x.length) env' := by
  cases x <;> exact ⟨_, rfl⟩

/-- A symbol that labels an item of `code` is bound after the first loop. -/
theorem setLabels_isSome {code : List Item} {s : Label} (h : ∃ size, Item.label size s ∈ code)
    (n : ℕ) (env : Symbols) : (setLabels code n env s).isSome := by
  induction code generalizing n env with
  | nil => simp at h
  | cons x code ih =>
    by_cases hc : ∃ size, Item.label size s ∈ code
    · obtain ⟨env', he⟩ := setLabels_cons x code n env
      rw [he]
      exact ih hc _ _
    · obtain ⟨size, h⟩ := h
      obtain rfl : Item.label size s = x := by
        rcases List.mem_cons.mp h with h | h
        · exact h
        · exact absurd ⟨size, h⟩ hc
      rw [setLabels, setLabels_of_not_mem (fun size hm => hc ⟨size, hm⟩)]
      simp

/-! ## One round -/

inductive Relaxed : Item → Item → Prop
  | refl (x : Item) : Relaxed x x
  | long (size : ℕ) (test : Test) (label : Label) :
    Relaxed (.jmpShort size test label) (.jmp (longSize test) test label)

theorem Relaxed.trans {x y z : Item} (h₁ : Relaxed x y) (h₂ : Relaxed y z) : Relaxed x z := by
  cases h₁ with
  | refl => exact h₂
  | long size test label => cases h₂; exact .long size test label

theorem Relaxed.eq_label {x : Item} {size : ℕ} {s : Label} :
    Relaxed (.label size s) x ↔ x = .label size s :=
  ⟨fun h => by cases h; rfl, fun h => h ▸ .refl _⟩

/-- Whether an item is a short jump. -/
def Item.isShort : Item → Bool
  | .jmpShort _ _ _ => true
  | _ => false

def shortJumps (code : List Item) : ℕ := code.countP Item.isShort

/-- The short jump at index `i` reaches its label, when the code starts at position `here`. -/
def Reaches (env : Symbols) (code : List Item) (here : ℕ) : Prop :=
  ∀ i size test label, code[i]? = some (.jmpShort size test label) →
    ∃ value, env label = some value ∧
      -128 ≤ value - (here + offset code i + size : ℕ) ∧
      value - (here + offset code i + size : ℕ) ≤ 127

theorem Reaches.cons {env : Symbols} {x : Item} {code : List Item} {here : ℕ}
    (hx : ∀ size test label, x = .jmpShort size test label → ∃ value, env label = some value ∧
      -128 ≤ value - (here + size : ℕ) ∧ value - (here + size : ℕ) ≤ 127)
    (h : Reaches env code (here + x.length)) : Reaches env (x :: code) here := by
  intro i size test label hi
  cases i with
  | zero => simpa using hx size test label (by simpa using hi)
  | succ i =>
    obtain ⟨value, hv, h₁, h₂⟩ := h i size test label (by simpa using hi)
    rw [Nat.add_assoc here] at h₁ h₂
    exact ⟨value, hv, by simpa using h₁, by simpa using h₂⟩

structure RoundSpec (env : Symbols) (code : List Item) (here : ℕ) (code' : List Item)
    (changed : Bool) : Prop where
  relaxed : List.Forall₂ Relaxed code code'
  shortJumps_lt : changed = true → shortJumps code' < shortJumps code
  shortJumps_le : shortJumps code' ≤ shortJumps code
  unchanged : changed = false → code' = code ∧ Reaches env code here

/-- **One round.** -/
theorem relax_spec {env : Symbols} {code code' : List Item} {here : ℕ} {changed : Bool}
    (h : relax env code here = .ok (code', changed)) : RoundSpec env code here code' changed := by
  induction code generalizing here code' changed with
  | nil =>
    simp only [relax, Except.ok.injEq, Prod.mk.injEq] at h
    obtain ⟨rfl, rfl⟩ := h
    exact ⟨.nil, by simp, le_rfl, fun _ => ⟨rfl, fun i => by simp⟩⟩
  | cons x code ih =>
    -- every item but a short jump is copied, and so is a short jump that reaches its label
    have copy : ∀ {r : Except Label (List Item × Bool)}, r = relax env code (here + x.length) →
        r.map (fun r => (x :: r.1, r.2)) = .ok (code', changed) →
        (∀ size test label, x = .jmpShort size test label → ∃ value, env label = some value ∧
          -128 ≤ value - (here + size : ℕ) ∧ value - (here + size : ℕ) ≤ 127) →
        RoundSpec env (x :: code) here code' changed := by
      intro r hr hmap hx
      cases r with
      | error l => simp [Except.map] at hmap
      | ok r =>
        simp only [Except.map, Except.ok.injEq, Prod.mk.injEq] at hmap
        obtain ⟨rfl, rfl⟩ := hmap
        have ih := ih hr.symm
        refine ⟨.cons (.refl x) ih.relaxed, fun hc => ?_, ?_, fun hc => ⟨?_, ?_⟩⟩
        · have := ih.shortJumps_lt hc
          simp only [shortJumps, List.countP_cons] at this ⊢
          omega
        · have := ih.shortJumps_le
          simp only [shortJumps, List.countP_cons] at this ⊢
          omega
        · rw [(ih.unchanged hc).1]
        · exact Reaches.cons hx (ih.unchanged hc).2
    cases x with
    | jmpShort size test label =>
      rw [relax] at h
      split at h
      · simp at h
      · rename_i value hv
        simp only at h
        split_ifs at h with hd
        · cases hr : relax env code (here + longSize test) with
          | error l => simp [hr, Except.map] at h
          | ok r =>
            simp only [hr, Except.map, Except.ok.injEq, Prod.mk.injEq] at h
            obtain ⟨rfl, rfl⟩ := h
            have hle := (ih hr).shortJumps_le
            have hlt : shortJumps (.jmp (longSize test) test label :: r.1) <
                shortJumps (.jmpShort size test label :: code) := by
              simp only [shortJumps, List.countP_cons, Item.isShort] at hle ⊢
              simp only [Bool.false_eq_true, if_false, if_true]
              omega
            exact ⟨.cons (.long size test label) (ih hr).relaxed, fun _ => hlt, hlt.le, by simp⟩
        · refine copy rfl h fun size' test' label' he => ?_
          obtain ⟨rfl, rfl, rfl⟩ : size = size' ∧ test = test' ∧ label = label' := by
            simpa using he
          exact ⟨value, hv, by omega, by omega⟩
    | _ => exact copy rfl h (by simp)

theorem relax_error {env : Symbols} {code : List Item} {here : ℕ} {label : Label}
    (h : relax env code here = .error label) :
    env label = none ∧ ∃ size test, Item.jmpShort size test label ∈ code := by
  induction code generalizing here with
  | nil => simp [relax] at h
  | cons x code ih =>
    have rest : ∀ {n : ℕ} {f : List Item × Bool → List Item × Bool},
        (relax env code n).map f = .error label →
        env label = none ∧ ∃ size test, Item.jmpShort size test label ∈ x :: code := by
      intro n f hf
      cases hr : relax env code n with
      | ok r => simp [hr, Except.map] at hf
      | error l =>
        obtain rfl : l = label := by simpa [hr, Except.map] using hf
        obtain ⟨hn, size, test, hm⟩ := ih hr
        exact ⟨hn, size, test, List.mem_cons_of_mem _ hm⟩
    cases x with
    | jmpShort size test l =>
      rw [relax] at h
      split at h
      · rename_i hn
        obtain rfl : l = label := by simpa using h
        exact ⟨hn, size, test, List.mem_cons_self⟩
      · simp only at h
        split_ifs at h <;> exact rest h
    | _ => exact rest h

/-! ## The loop -/

/-- The layout `fix-jumps` leaves behind: only short jumps have changed, the symbol of a label
holds the offset of the label, and every jump that is still short reaches its label. A symbol that
labels several items holds the offset of the last of them. -/
structure Fixed (code code' : List Item) (env' : Symbols) : Prop where
  relaxed : List.Forall₂ Relaxed code code'
  labels : ∀ i size s, code'[i]? = some (.label size s) →
    (∀ j size', i < j → code'[j]? ≠ some (.label size' s)) → env' s = some (offset code' i : ℤ)
  reaches : Reaches env' code' 0

/-- The symbol `label` is the target of a short jump but has no value: it labels no item and was
not bound before. -/
structure Unbound (code : List Item) (env : Symbols) (label : Label) : Prop where
  not_mem : ∀ size, Item.label size label ∉ code
  value : env label = none
  target : ∃ size test, Item.jmpShort size test label ∈ code

theorem forall₂_relaxed_trans {a b c : List Item} (h₁ : List.Forall₂ Relaxed a b)
    (h₂ : List.Forall₂ Relaxed b c) : List.Forall₂ Relaxed a c := by
  induction h₁ generalizing c with
  | nil => exact h₂
  | cons hx _ ih =>
    cases h₂ with
    | cons hy h₂ => exact .cons (hx.trans hy) (ih h₂)

theorem mem_of_forall₂_relaxed {code code' : List Item} (h : List.Forall₂ Relaxed code code') :
    (∀ size s, Item.label size s ∈ code → Item.label size s ∈ code') ∧
      ∀ size test label, Item.jmpShort size test label ∈ code' →
        Item.jmpShort size test label ∈ code := by
  induction h with
  | nil => simp
  | cons hx _ ih =>
    refine ⟨fun size s hm => ?_, fun size test label hm => ?_⟩
    · rcases List.mem_cons.mp hm with rfl | hm
      · rw [Relaxed.eq_label.mp hx]
        exact List.mem_cons_self
      · exact List.mem_cons_of_mem _ (ih.1 size s hm)
    · rcases List.mem_cons.mp hm with rfl | hm
      · cases hx
        exact List.mem_cons_self
      · exact List.mem_cons_of_mem _ (ih.2 size test label hm)

/-- A symbol is unbound after the first loop only if it labels nothing and was unbound before. -/
theorem of_setLabels_eq_none {code : List Item} {env : Symbols} {s : Label} {n : ℕ}
    (h : setLabels code n env s = none) :
    (∀ size, Item.label size s ∉ code) ∧ env s = none := by
  have hno : ∀ size, Item.label size s ∉ code := by
    intro size hm
    have := setLabels_isSome ⟨size, hm⟩ n env
    simp [h] at this
  exact ⟨hno, by rwa [setLabels_of_not_mem hno] at h⟩

/-- The result of the loop from `code` and `env`. -/
def LoopSpec (code : List Item) (env : Symbols) : Except Label (List Item × Symbols) → Prop
  | .ok (code', env') => Fixed code code' env'
  | .error label => Unbound code env label

theorem LoopSpec.of_round {code code' : List Item} {env : Symbols}
    {r : Except Label (List Item × Symbols)} (hr : List.Forall₂ Relaxed code code')
    (h : LoopSpec code' (setLabels code 0 env) r) : LoopSpec code env r := by
  match r, h with
  | .ok (_, _), h => exact ⟨forall₂_relaxed_trans hr h.relaxed, h.labels, h.reaches⟩
  | .error label, h =>
    obtain ⟨hno, hnone⟩ := of_setLabels_eq_none h.value
    obtain ⟨size, test, hm⟩ := h.target
    exact ⟨hno, hnone, size, test, (mem_of_forall₂_relaxed hr).2 size test label hm⟩

theorem fixJumps_of_lt {n : ℕ} {code : List Item} (h : shortJumps code < n) (env : Symbols) :
    ∃ r, fixJumps n code env = some r ∧ LoopSpec code env r := by
  induction n generalizing code env with
  | zero => omega
  | succ n ih =>
    rw [fixJumps]
    cases hr : relax (setLabels code 0 env) code 0 with
    | error label =>
      obtain ⟨hnone, htarget⟩ := relax_error hr
      obtain ⟨hno, hv⟩ := of_setLabels_eq_none hnone
      exact ⟨_, rfl, hno, hv, htarget⟩
    | ok p =>
      obtain ⟨code', changed⟩ := p
      have spec := relax_spec hr
      cases changed with
      | true =>
        have hlt : shortJumps code' < n := by
          have := spec.shortJumps_lt rfl
          omega
        obtain ⟨r, hr', hspec⟩ := ih hlt (setLabels code 0 env)
        exact ⟨r, hr', hspec.of_round spec.relaxed⟩
      | false =>
        -- nothing changed in this round, so the offsets it used are the final ones
        obtain ⟨rfl, hreach⟩ := spec.unchanged rfl
        refine ⟨_, rfl, spec.relaxed, fun i size s hi hlast => ?_, hreach⟩
        simpa using setLabels_eq_offset hi (fun j size' => hlast j size') 0 env

/-- **Branch relaxation ends in a consistent layout.** The loop stops; it fails exactly on a short
jump to a label that is bound nowhere; otherwise only short jumps have changed, each label's symbol
holds the sum of the sizes before it, and every remaining short jump has a displacement between
`-128` and `127`. -/
theorem fixJumps_correct (code : List Item) (env : Symbols) :
    ∃ rounds result, fixJumps rounds code env = some result ∧
      ((∃ code' env', result = .ok (code', env') ∧ Fixed code code' env') ∨
        ∃ label, result = .error label ∧ Unbound code env label) := by
  obtain ⟨r, hr, hspec⟩ := fixJumps_of_lt (Nat.lt_succ_self (shortJumps code)) env
  refine ⟨_, r, hr, ?_⟩
  match r, hspec with
  | .ok (code', env'), hspec => exact .inl ⟨code', env', rfl, hspec⟩
  | .error label, hspec => exact .inr ⟨label, rfl, hspec⟩

end Xcl.P3
