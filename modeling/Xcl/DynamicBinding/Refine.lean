import Xcl.DynamicBinding.Model
import Mathlib.Tactic

/-!
# Dynamic binding is exact

* `Op.Exact`: the operations that reach none of the three places where the threads go wrong;
* **`run_eq_reference`**: in every interleaving of such operations of any number of threads the
  replies are those of the reference.
-/

namespace Xcl.DynamicBinding

variable {σ υ ι : Type} [DecidableEq σ] [DecidableEq ι]

/-! ## The condition -/

def State.HasRoom (s : State σ υ ι) (symbol : σ) : Prop :=
  s.bindingIndex symbol ≠ 0 ∨ s.nextBindingIndex < maxThreadLocalValues

instance (s : State σ υ ι) (symbol : σ) : Decidable (s.HasRoom symbol) :=
  inferInstanceAs (Decidable (_ ∨ _))

/-- The array of thread-local values has room; a symbol is bound to its current value only if the
thread has a binding of it, or the stack is full; and the stack is not full when it is unbound to
a depth that was saved. -/
def Op.Exact (s : State σ υ ι) (r : Reference σ υ ι) (t : ι) : Op σ υ → Prop
  | .bindSpecial symbol _ => s.HasRoom symbol
  | .bindSpecialToCurrentValue symbol =>
    s.HasRoom symbol ∧
      (s.symbolThreadLocalValue t symbol ≠ some none ∨
        (s.threads t).bindingStackCapacity ≤ (s.threads t).bindingStackIndex ∨
        (s.value symbol).isNone)
  | .unbindTo n => n ∈ (r.threads t).saved ∧ n < (s.threads t).bindingStackCapacity
  | _ => True

instance [DecidableEq υ] (s : State σ υ ι) (r : Reference σ υ ι) (t : ι) (op : Op σ υ) :
    Decidable (op.Exact s r t) :=
  match op with
  | .bindSpecial _ _ => inferInstanceAs (Decidable (State.HasRoom _ _))
  | .bindSpecialToCurrentValue _ => inferInstanceAs (Decidable (_ ∧ _))
  | .unbindTo _ => inferInstanceAs (Decidable (_ ∧ _))
  | .setSymbolValue _ _ => inferInstanceAs (Decidable True)
  | .symbolValue _ => inferInstanceAs (Decidable True)
  | .lastSpecialBinding => inferInstanceAs (Decidable True)

/-- Every step of the run meets the condition. -/
def Meets (s : State σ υ ι) (r : Reference σ υ ι) : List (ι × Op σ υ) → Prop
  | [] => True
  | (t, op) :: ops =>
    op.Exact s r t ∧
      match exec s t op with
      | some (_, s') => Meets s' (r.exec t op).2 ops
      | none => True

instance decidableMeets [DecidableEq υ] : (s : State σ υ ι) → (r : Reference σ υ ι) →
    (ops : List (ι × Op σ υ)) → Decidable (Meets s r ops)
  | _, _, [] => inferInstanceAs (Decidable True)
  | s, r, (t, op) :: ops =>
    have : Decidable (match exec s t op with
        | some (_, s') => Meets s' (r.exec t op).2 ops
        | none => True) :=
      match exec s t op with
      | some (_, s') => decidableMeets s' (r.exec t op).2 ops
      | none => inferInstanceAs (Decidable True)
    inferInstanceAs (Decidable (_ ∧ _))

/-! ## The bindings of the reference -/

namespace Reference

theorem lookup_assign (a symbol : σ) (v : Value υ) (stack : List (σ × Value υ)) :
    lookup a (assign symbol v stack) =
      if a = symbol ∧ (lookup symbol stack).isSome then some v else lookup a stack := by
  induction stack with
  | nil => simp [assign, lookup]
  | cons head rest ih =>
    obtain ⟨name, old⟩ := head
    by_cases hname : name = symbol
    · subst hname
      by_cases ha : name = a
      · simp [assign, lookup, ha]
      · simp [assign, lookup, ha, Ne.symm ha]
    · by_cases ha : name = a
      · subst ha
        simp [assign, lookup, hname]
      · simp [assign, lookup, hname, ha, ih]

theorem length_assign (symbol : σ) (v : Value υ) (stack : List (σ × Value υ)) :
    (assign symbol v stack).length = stack.length := by
  induction stack with
  | nil => rfl
  | cons head rest ih =>
    obtain ⟨name, old⟩ := head
    by_cases hname : name = symbol
    · simp [assign, hname]
    · simp [assign, hname, ih]

end Reference

open Reference

/-! ## The simulation -/

/-- The stack has the bindings, each with the value that it shadows. -/
def Stored (base : ℕ → Entry σ υ) : List (σ × Value υ) → Prop
  | [] => True
  | (symbol, _) :: rest =>
    base (2 * rest.length) = .value (lookup symbol rest) ∧
      base (2 * rest.length + 1) = .name symbol ∧ Stored base rest

theorem Stored.congr {base base' : ℕ → Entry σ υ} {stack : List (σ × Value υ)}
    (h : Stored base stack) (hsame : ∀ n, n < 2 * stack.length → base' n = base n) :
    Stored base' stack := by
  induction stack with
  | nil => exact trivial
  | cons head rest ih =>
    obtain ⟨hvalue, hname, hrest⟩ := h
    have hlength : (head :: rest).length = rest.length + 1 := rfl
    refine ⟨?_, ?_, ih hrest fun n hn => hsame n (by omega)⟩
    · rw [hsame _ (by omega)]
      exact hvalue
    · rw [hsame _ (by omega)]
      exact hname

theorem Stored.assign {base : ℕ → Entry σ υ} {stack : List (σ × Value υ)} (h : Stored base stack)
    (symbol : σ) (v : Value υ) : Stored base (assign symbol v stack) := by
  induction stack with
  | nil => exact trivial
  | cons head rest ih =>
    obtain ⟨name, old⟩ := head
    obtain ⟨hvalue, hname, hrest⟩ := h
    unfold Reference.assign
    split
    · exact ⟨hvalue, hname, hrest⟩
    · rename_i hne
      unfold Stored
      rw [length_assign, lookup_assign, if_neg fun h => hne h.1]
      exact ⟨hvalue, hname, ih hrest⟩

structure Agrees (bindingIndex : σ → ℕ) (next : ℕ) (thread : Thread σ υ)
    (bindings : Bindings σ υ) : Prop where
  index : thread.bindingStackIndex = 2 * bindings.stack.length
  le : thread.bindingStackIndex ≤ thread.bindingStackCapacity
  even : thread.bindingStackCapacity % 2 = 0
  pos : 0 < thread.bindingStackCapacity
  stored : Stored thread.bindingStackBase bindings.stack
  values : ∀ symbol, bindingIndex symbol ≠ 0 →
    thread.threadLocalValues (bindingIndex symbol) = lookup symbol bindings.stack
  unbound : ∀ symbol, bindingIndex symbol = 0 → lookup symbol bindings.stack = none
  fresh : ∀ i, next ≤ i → thread.threadLocalValues i = none
  saved : ∀ n ∈ bindings.saved, ∃ k ≤ bindings.stack.length, n = 2 * k

structure Simulates (s : State σ υ ι) (r : Reference σ υ ι) : Prop where
  value : s.value = r.value
  next : 1 ≤ s.nextBindingIndex
  index_lt : ∀ symbol,
    s.bindingIndex symbol < s.nextBindingIndex ∧ s.bindingIndex symbol < maxThreadLocalValues
  index_inj : ∀ a b, s.bindingIndex a ≠ 0 → s.bindingIndex a = s.bindingIndex b → a = b
  threads : ∀ t, Agrees s.bindingIndex s.nextBindingIndex (s.threads t) (r.threads t)

variable {s : State σ υ ι} {r : Reference σ υ ι} {t : ι} {symbol : σ} {v : Value υ}

omit [DecidableEq ι] in
theorem simulates_initial (value : σ → Value υ) :
    Simulates (ι := ι) (State.initial value) (Reference.initial value) where
  value := rfl
  next := le_rfl
  index_lt _ := ⟨Nat.one_pos, show 0 < maxThreadLocalValues by decide⟩
  index_inj _ _ h := absurd rfl h
  threads _ :=
    { index := rfl
      le := Nat.zero_le _
      even := show initialBindingStackSize % 2 = 0 by decide
      pos := show 0 < initialBindingStackSize by decide
      stored := trivial
      values := fun _ h => absurd rfl h
      unbound := fun _ _ => rfl
      fresh := fun _ _ => rfl
      saved := fun _ h => absurd h List.not_mem_nil }

omit [DecidableEq ι] in
theorem Simulates.symbolThreadLocalValue (h : Simulates s r) (t : ι) (symbol : σ) :
    s.symbolThreadLocalValue t symbol = some (lookup symbol (r.threads t).stack) := by
  unfold State.symbolThreadLocalValue
  by_cases hindex : s.bindingIndex symbol = 0
  · rw [if_pos hindex, (h.threads t).unbound symbol hindex]
  · rw [if_neg hindex, Thread.threadLocalValue, if_pos (h.index_lt symbol).2,
      (h.threads t).values symbol hindex]

omit [DecidableEq ι] in
theorem Simulates.symbolValue (h : Simulates s r) (t : ι) (symbol : σ) :
    s.symbolValue t symbol = some (r.symbolValue t symbol) := by
  rw [State.symbolValue, h.symbolThreadLocalValue, Option.map_some, Reference.symbolValue, h.value]

omit [DecidableEq ι] in
theorem Simulates.currentValue (h : Simulates s r) (t : ι) (symbol : σ) :
    s.currentValue t symbol = some (r.symbolValue t symbol) := by
  rw [← h.symbolValue]
  unfold State.currentValue State.symbolValue State.symbolThreadLocalValue
  by_cases hindex : s.bindingIndex symbol = 0
  · simp [hindex]
  · rw [if_neg hindex, if_pos (Nat.pos_of_ne_zero hindex)]

/-! ## Binding indices -/

omit [DecidableEq ι] in


omit [DecidableEq ι] in
theorem threads_assignBindingIndex (s : State σ υ ι) (symbol : σ) :
    (s.assignBindingIndex symbol).threads = s.threads := by
  unfold State.assignBindingIndex
  split <;> rfl

omit [DecidableEq ι] in
theorem assignBindingIndex_of_ne (h : s.bindingIndex symbol ≠ 0) :
    s.assignBindingIndex symbol = s := if_neg h

omit [DecidableEq ι] in
theorem Simulates.assignBindingIndex (h : Simulates s r) (hroom : s.HasRoom symbol) :
    Simulates (s.assignBindingIndex symbol) r ∧
      (s.assignBindingIndex symbol).bindingIndex symbol ≠ 0 := by
  by_cases hindex : s.bindingIndex symbol = 0
  · have hnext := h.next
    have hlt : s.nextBindingIndex < maxThreadLocalValues := hroom.resolve_left fun h => h hindex
    unfold State.assignBindingIndex
    rw [if_pos hindex]
    refine ⟨⟨h.value, Nat.le_succ_of_le hnext, ?_, ?_, ?_⟩, ?_⟩
    · intro a
      by_cases ha : a = symbol
      · simp [ha, hlt]
      · have := h.index_lt a
        simp only [Function.update_of_ne ha]
        omega
    · intro a b
      have hia := (h.index_lt a).1
      have hib := (h.index_lt b).1
      by_cases ha : a = symbol <;> by_cases hb : b = symbol
      · simp [ha, hb]
      · simp only [ha, Function.update_self, Function.update_of_ne hb]
        omega
      · simp only [hb, Function.update_self, Function.update_of_ne ha]
        omega
      · simp only [Function.update_of_ne ha, Function.update_of_ne hb]
        exact h.index_inj a b
    · intro t
      have ht := h.threads t
      refine ⟨ht.index, ht.le, ht.even, ht.pos, ht.stored, ?_, ?_, ?_, ht.saved⟩
      · intro a
        dsimp only
        by_cases ha : a = symbol
        · subst ha
          intro _
          rw [Function.update_self, ht.unbound a hindex]
          exact ht.fresh _ le_rfl
        · rw [Function.update_of_ne ha]
          exact ht.values a
      · intro a
        dsimp only
        by_cases ha : a = symbol
        · subst ha
          rw [Function.update_self]
          omega
        · rw [Function.update_of_ne ha]
          exact ht.unbound a
      · intro i hi
        exact ht.fresh i (Nat.le_of_succ_le hi)
    · dsimp only
      rw [Function.update_self]
      omega
  · rw [assignBindingIndex_of_ne hindex]
    exact ⟨h, hindex⟩

/-! ## Binding -/

/-- The thread in which the symbol with index `i` is bound. -/
def Thread.bound (thread : Thread σ υ) (i : ℕ) (old : Option (Value υ)) (symbol : σ)
    (v : Value υ) : Thread σ υ :=
  { thread.push old symbol with
    threadLocalValues := Function.update thread.threadLocalValues i (some v) }

theorem Agrees.grow {bindingIndex : σ → ℕ} {next : ℕ} {thread : Thread σ υ}
    {bindings : Bindings σ υ} (h : Agrees bindingIndex next thread bindings) :
    Agrees bindingIndex next thread.grow bindings ∧
      thread.grow.bindingStackIndex < thread.grow.bindingStackCapacity := by
  have hle := h.le
  have hindex := h.index
  have heven := h.even
  have hpos := h.pos
  unfold Thread.grow
  split
  · refine ⟨⟨hindex, ?_, ?_, ?_, ?_, h.values, h.unbound, h.fresh, h.saved⟩, ?_⟩
    · dsimp only
      omega
    · dsimp only
      omega
    · dsimp only
      omega
    · apply h.stored.congr
      intro n hn
      exact if_pos (by omega)
    · dsimp only
      omega
  · exact ⟨h, by omega⟩

theorem Simulates.bound {thread : Thread σ υ} (h : Simulates s r)
    (hindex : s.bindingIndex symbol ≠ 0)
    (hagrees : Agrees s.bindingIndex s.nextBindingIndex thread (r.threads t))
    (hlt : thread.bindingStackIndex < thread.bindingStackCapacity) :
    Simulates
      (s.setThread t (thread.bound (s.bindingIndex symbol) (lookup symbol (r.threads t).stack)
        symbol v))
      (r.bind t symbol v) := by
  refine ⟨h.value, h.next, h.index_lt, h.index_inj, fun t' => ?_⟩
  by_cases ht : t' = t
  · subst ht
    have hlength := hagrees.index
    have heven := hagrees.even
    simp only [State.setThread, Reference.bind, Reference.setThread, Function.update_self]
    refine ⟨?_, ?_, heven, hagrees.pos, ⟨?_, ?_, ?_⟩, ?_, ?_, ?_, ?_⟩
    · simp [Thread.bound, Thread.push, hlength]
      ring
    · simp only [Thread.bound, Thread.push]
      omega
    · simp [Thread.bound, Thread.push, hlength]
    · simp [Thread.bound, Thread.push, hlength]
    · apply hagrees.stored.congr
      intro n hn
      have hn₁ : n ≠ thread.bindingStackIndex := by omega
      have hn₂ : n ≠ thread.bindingStackIndex + 1 := by omega
      simp [Thread.bound, Thread.push, hn₁, hn₂]
    · intro a ha
      by_cases hsame : a = symbol
      · simp [Thread.bound, hsame, lookup]
      · have hne : s.bindingIndex a ≠ s.bindingIndex symbol := fun heq =>
          hsame (h.index_inj a symbol ha heq)
        simp only [Thread.bound, Function.update_of_ne hne, lookup, if_neg (Ne.symm hsame)]
        exact hagrees.values a ha
    · intro a ha
      have hsame : symbol ≠ a := by
        rintro rfl
        exact hindex ha
      simp only [lookup, if_neg hsame]
      exact hagrees.unbound a ha
    · intro i hi
      have := (h.index_lt symbol).1
      have hne : i ≠ s.bindingIndex symbol := by omega
      simp only [Thread.bound, Function.update_of_ne hne]
      exact hagrees.fresh i hi
    · intro n hn
      obtain ⟨k, hk, rfl⟩ := hagrees.saved n hn
      exact ⟨k, Nat.le_succ_of_le hk, rfl⟩
  · simp only [State.setThread, Reference.bind, Reference.setThread, Function.update_of_ne ht]
    exact h.threads t'

theorem Simulates.slowBindSpecial (h : Simulates s r) (hroom : s.HasRoom symbol) :
    ∃ s', s.slowBindSpecial t symbol v = some s' ∧ Simulates s' (r.bind t symbol v) := by
  obtain ⟨h', hindex⟩ := h.assignBindingIndex hroom
  have hagrees := h'.threads t
  rw [threads_assignBindingIndex] at hagrees
  obtain ⟨hgrow, hlt⟩ := hagrees.grow
  refine ⟨_, ?_, h'.bound hindex hgrow hlt⟩
  have hassign : ∀ thread : Thread σ υ, (s.setThread t thread).assignBindingIndex symbol =
      (s.assignBindingIndex symbol).setThread t thread := by
    intro thread
    unfold State.assignBindingIndex State.setThread
    dsimp only
    split <;> rfl
  have hset : ∀ thread thread' : Thread σ υ,
      ((s.assignBindingIndex symbol).setThread t thread).setThread t thread' =
        (s.assignBindingIndex symbol).setThread t thread' := by
    intro thread thread'
    simp [State.setThread]
  simp only [State.slowBindSpecial, h.symbolThreadLocalValue, Option.bind_some,
    State.setSymbolThreadLocalValue, hassign]
  have hbound : ((s.assignBindingIndex symbol).setThread t
      ((s.threads t).grow.push (lookup symbol (r.threads t).stack) symbol)).bindingIndex symbol
        < maxThreadLocalValues := (h'.index_lt symbol).2
  rw [Thread.setThreadLocalValue, if_pos hbound, Option.map_some, hset]
  simp [State.setThread, Thread.bound, Thread.push]

theorem Simulates.fastBind (h : Simulates s r) (hroom : s.HasRoom symbol)
    (hlt : (s.threads t).bindingStackIndex < (s.threads t).bindingStackCapacity) :
    ∃ s', ((((s.assignBindingIndex symbol).threads t).push (lookup symbol (r.threads t).stack)
        symbol).setThreadLocalValue ((s.assignBindingIndex symbol).bindingIndex symbol)
          (some v)).map ((s.assignBindingIndex symbol).setThread t) = some s' ∧
      Simulates s' (r.bind t symbol v) := by
  obtain ⟨h', hindex⟩ := h.assignBindingIndex hroom
  have hagrees := h'.threads t
  rw [threads_assignBindingIndex] at hagrees ⊢
  refine ⟨_, ?_, h'.bound hindex hagrees hlt⟩
  rw [Thread.setThreadLocalValue, if_pos (h'.index_lt symbol).2]
  rfl

theorem Simulates.bindSpecial (h : Simulates s r) (hroom : s.HasRoom symbol) :
    ∃ s', s.bindSpecial t symbol v = some s' ∧ Simulates s' (r.bind t symbol v) := by
  unfold State.bindSpecial
  split
  · rename_i hlt
    have hold : (if s.bindingIndex symbol = 0 then some none
        else (s.threads t).threadLocalValue (s.bindingIndex symbol)) =
          some (lookup symbol (r.threads t).stack) := h.symbolThreadLocalValue t symbol
    rw [hold]
    exact h.fastBind hroom hlt
  · exact h.slowBindSpecial hroom

theorem Simulates.bindSpecialToCurrentValue (h : Simulates s r)
    (hexact : (Op.bindSpecialToCurrentValue symbol).Exact s r t) :
    ∃ bound s', s.bindSpecialToCurrentValue t symbol = some (bound, s') ∧
      (bound = (r.symbolValue t symbol).isSome) ∧
      Simulates s' (if bound then r.bind t symbol (r.symbolValue t symbol) else r) := by
  obtain ⟨hroom, hbinding⟩ := hexact
  unfold State.bindSpecialToCurrentValue
  rw [h.currentValue, Option.bind_some]
  dsimp only
  cases hv : r.symbolValue t symbol with
  | none =>
    refine ⟨false, _, rfl, rfl, ?_⟩
    exact (h.assignBindingIndex hroom).1
  | some v =>
    simp only [Option.isNone_some, Bool.false_eq_true, if_false]
    rw [h.symbolThreadLocalValue] at hbinding
    rw [threads_assignBindingIndex]
    by_cases hlt : (s.threads t).bindingStackIndex < (s.threads t).bindingStackCapacity
    · rw [if_pos hlt]
      have hlookup : lookup symbol (r.threads t).stack = some (some v) := by
        cases hl : lookup symbol (r.threads t).stack with
        | some w =>
          rw [Reference.symbolValue, hl] at hv
          exact congrArg some hv
        | none =>
          rw [Reference.symbolValue, hl, ← h.value] at hv
          rcases hbinding with hne | hfull | hnone
          · exact absurd (congrArg some hl) hne
          · exact absurd hlt (not_lt.2 hfull)
          · rw [show s.value symbol = some v from hv] at hnone
            cases hnone
      obtain ⟨s', hs', hsim⟩ := h.fastBind (v := some v) hroom hlt
      rw [hlookup, threads_assignBindingIndex, Option.map_eq_some_iff] at hs'
      obtain ⟨thread, hthread, rfl⟩ := hs'
      exact ⟨true, _, by rw [hthread]; rfl, rfl, hsim⟩
    · rw [if_neg hlt]
      obtain ⟨h', hindex⟩ := h.assignBindingIndex hroom
      obtain ⟨s', hs', hsim⟩ := h'.slowBindSpecial (t := t) (v := some v) (Or.inl hindex)
      exact ⟨true, s', by rw [hs']; rfl, rfl, hsim⟩

/-! ## Assignment -/

theorem Simulates.setSymbolValue (h : Simulates s r) :
    ∃ s', s.setSymbolValue t symbol v = some s' ∧
      Simulates s' (r.exec t (.setSymbolValue symbol v)).2 := by
  unfold State.setSymbolValue
  rw [h.symbolThreadLocalValue, Option.bind_some]
  unfold Reference.exec
  dsimp only
  split
  · rename_i hsome
    have hindex : s.bindingIndex symbol ≠ 0 := by
      intro hzero
      rw [(h.threads t).unbound symbol hzero] at hsome
      cases hsome
    rw [State.setSymbolThreadLocalValue, assignBindingIndex_of_ne hindex]
    rw [Thread.setThreadLocalValue, if_pos (h.index_lt symbol).2]
    refine ⟨_, rfl, h.value, h.next, h.index_lt, h.index_inj, fun t' => ?_⟩
    by_cases ht : t' = t
    · subst ht
      have hagrees := h.threads t'
      simp only [State.setThread, Reference.setThread, Function.update_self]
      refine ⟨?_, hagrees.le, hagrees.even, hagrees.pos, hagrees.stored.assign symbol v, ?_, ?_,
        ?_, ?_⟩
      · rw [length_assign]
        exact hagrees.index
      · intro a ha
        rw [lookup_assign]
        by_cases hsame : a = symbol
        · simp [hsame, hsome]
        · have hne : s.bindingIndex a ≠ s.bindingIndex symbol := fun heq =>
            hsame (h.index_inj a symbol ha heq)
          rw [if_neg fun h => hsame h.1]
          exact (Function.update_of_ne hne _ _).trans (hagrees.values a ha)
      · intro a ha
        have hsame : a ≠ symbol := by
          rintro rfl
          exact hindex ha
        rw [lookup_assign, if_neg fun h => hsame h.1]
        exact hagrees.unbound a ha
      · intro i hi
        have := (h.index_lt symbol).1
        exact (Function.update_of_ne (by omega) _ _).trans (hagrees.fresh i hi)
      · intro n hn
        rw [length_assign]
        exact hagrees.saved n hn
    · simp only [State.setThread, Reference.setThread, Function.update_of_ne ht]
      exact h.threads t'
  · refine ⟨_, rfl, ?_, h.next, h.index_lt, h.index_inj, h.threads⟩
    dsimp only
    rw [h.value]

/-! ## Unbinding -/

def State.withIndex (s : State σ υ ι) (t : ι) (n : ℕ) : State σ υ ι :=
  s.setThread t { s.threads t with bindingStackIndex := n }

def Reference.withStack (r : Reference σ υ ι) (t : ι) (stack : List (σ × Value υ))
    (saved : List ℕ) : Reference σ υ ι := r.setThread t ⟨stack, saved⟩

/-- The thread in which the symbol with index `i` has the value of before its binding. -/
def Thread.unbound (thread : Thread σ υ) (n i : ℕ) (old : Option (Value υ)) : Thread σ υ :=
  { (thread.clear (n + 1)).clear n with
    threadLocalValues := Function.update thread.threadLocalValues i old }

theorem unbindLoop_spec (stack : List (σ × Value υ)) {k : ℕ} (hk : k ≤ stack.length)
    (s : State σ υ ι) (h : Simulates (s.withIndex t (2 * stack.length)) (r.withStack t stack [])) :
    ∃ s', State.unbindLoop t (2 * k) s (2 * stack.length) = some s' ∧
      Simulates (s'.withIndex t (2 * k)) (r.withStack t (stack.drop (stack.length - k)) []) ∧
      (s'.threads t).bindingStackCapacity = (s.threads t).bindingStackCapacity := by
  induction stack generalizing s with
  | nil =>
    obtain rfl : k = 0 := Nat.le_zero.1 hk
    exact ⟨s, rfl, h, rfl⟩
  | cons head rest ih =>
    obtain ⟨symbol, v⟩ := head
    have hlength : ((symbol, v) :: rest).length = rest.length + 1 := rfl
    rw [hlength] at hk h ⊢
    by_cases hlt : k ≤ rest.length
    · have hagrees := h.threads t
      simp only [State.withIndex, Reference.withStack, State.setThread, Reference.setThread,
        Function.update_self] at hagrees
      obtain ⟨hvalue, hname, hstored⟩ := hagrees.stored
      have hindex : s.bindingIndex symbol ≠ 0 := by
        intro hzero
        have hnone := hagrees.unbound symbol hzero
        simp [lookup] at hnone
      have hmax : s.bindingIndex symbol < maxThreadLocalValues := (h.index_lt symbol).2
      have hstep : State.unbindLoop t (2 * k) s (2 * (rest.length + 1)) =
          State.unbindLoop t (2 * k)
            (s.setThread t ((s.threads t).unbound (2 * rest.length) (s.bindingIndex symbol)
              (lookup symbol rest)))
            (2 * rest.length) := by
        rw [Nat.mul_succ, State.unbindLoop, if_pos (by omega)]
        dsimp only at hvalue hname
        simp only [hname, hvalue, State.setSymbolThreadLocalValue]
        have hassign : ∀ thread : Thread σ υ, (s.setThread t thread).assignBindingIndex symbol =
            s.setThread t thread := fun thread => assignBindingIndex_of_ne hindex
        rw [hassign, Thread.setThreadLocalValue,
          if_pos (show (s.setThread t _).bindingIndex symbol < _ from hmax)]
        simp [State.setThread, Thread.unbound, Thread.clear]
      have hnext : Simulates
          ((s.setThread t ((s.threads t).unbound (2 * rest.length) (s.bindingIndex symbol)
            (lookup symbol rest))).withIndex t (2 * rest.length))
          (r.withStack t rest []) := by
        refine ⟨h.value, h.next, h.index_lt, h.index_inj, fun t' => ?_⟩
        by_cases ht : t' = t
        · subst ht
          have hle := hagrees.le
          simp only [State.withIndex, Reference.withStack, State.setThread, Reference.setThread,
            Function.update_self, Thread.unbound, Thread.clear]
          refine ⟨rfl, ?_, hagrees.even, hagrees.pos, ?_, ?_, ?_, ?_, ?_⟩
          · dsimp only at hle ⊢
            omega
          · apply hstored.congr
            intro n hn
            dsimp only
            rw [Function.update_of_ne (by omega), Function.update_of_ne (by omega)]
          · intro a ha
            by_cases hsame : a = symbol
            · dsimp only
              rw [hsame, Function.update_self]
            · have hne : s.bindingIndex a ≠ s.bindingIndex symbol := fun heq =>
                hsame (h.index_inj a symbol ha heq)
              have hold := hagrees.values a ha
              dsimp only [State.withIndex, State.setThread] at hold ⊢
              rw [Function.update_of_ne hne, hold, lookup, if_neg (Ne.symm hsame)]
          · intro a ha
            have hsame : symbol ≠ a := by
              rintro rfl
              exact hindex ha
            have hold := hagrees.unbound a ha
            rwa [lookup, if_neg hsame] at hold
          · intro i hi
            have hi' : s.nextBindingIndex ≤ i := hi
            have hslt : s.bindingIndex symbol < s.nextBindingIndex := (h.index_lt symbol).1
            exact (Function.update_of_ne (by omega) _ _).trans (hagrees.fresh i hi)
          · intro n hn
            cases hn
        · have hold := h.threads t'
          simp only [State.withIndex, Reference.withStack, State.setThread, Reference.setThread,
            Function.update_of_ne ht] at hold ⊢
          exact hold
      rw [hstep, Nat.sub_add_comm hlt, List.drop_succ_cons]
      obtain ⟨s', hs', hsim, hcapacity⟩ := ih hlt _ hnext
      refine ⟨s', hs', hsim, hcapacity.trans ?_⟩
      simp [State.setThread, Thread.unbound, Thread.clear]
    · obtain rfl : k = rest.length + 1 := by omega
      refine ⟨s, ?_, ?_, rfl⟩
      · rw [Nat.mul_succ, State.unbindLoop, if_neg (lt_irrefl _)]
      · rw [Nat.sub_self, List.drop_zero]
        exact h

theorem Simulates.unbindTo {n : ℕ} (h : Simulates s r) (hsaved : n ∈ (r.threads t).saved)
    (hlt : n < (s.threads t).bindingStackCapacity) :
    ∃ s', s.unbindTo t n = some s' ∧ Simulates s' (r.unbind t n) := by
  have hagrees := h.threads t
  obtain ⟨k, hk, rfl⟩ := hagrees.saved n hsaved
  have hstart : Simulates (s.withIndex t (2 * (r.threads t).stack.length))
      (r.withStack t (r.threads t).stack []) := by
    refine ⟨h.value, h.next, h.index_lt, h.index_inj, fun t' => ?_⟩
    by_cases ht : t' = t
    · subst ht
      simp only [State.withIndex, Reference.withStack, State.setThread, Reference.setThread,
        Function.update_self]
      have hle := hagrees.le
      rw [hagrees.index] at hle
      exact ⟨rfl, hle, hagrees.even, hagrees.pos, hagrees.stored, hagrees.values,
        hagrees.unbound, hagrees.fresh, fun _ hm => absurd hm List.not_mem_nil⟩
    · simp only [State.withIndex, Reference.withStack, State.setThread, Reference.setThread,
        Function.update_of_ne ht]
      exact h.threads t'
  obtain ⟨s', hs', hsim, -⟩ := unbindLoop_spec _ hk s hstart
  refine ⟨s'.withIndex t (2 * k), ?_, ?_⟩
  · rw [State.unbindTo, if_neg (not_le.2 hlt), hagrees.index, hs']
    rfl
  · refine ⟨hsim.value, hsim.next, hsim.index_lt, hsim.index_inj, fun t' => ?_⟩
    have hold := hsim.threads t'
    by_cases ht : t' = t
    · subst ht
      simp only [State.withIndex, Reference.withStack, Reference.unbind, State.setThread,
        Reference.setThread, Function.update_self] at hold ⊢
      rw [Nat.mul_div_cancel_left k Nat.two_pos]
      refine ⟨hold.index, hold.le, hold.even, hold.pos, hold.stored, hold.values, hold.unbound,
        hold.fresh, fun m hm => ?_⟩
      obtain ⟨hmem, hle⟩ := List.mem_filter.1 hm
      obtain ⟨j, hj, rfl⟩ := hagrees.saved m hmem
      have hle' : 2 * j ≤ 2 * k := by simpa using hle
      refine ⟨j, ?_, rfl⟩
      rw [List.length_drop]
      omega
    · simp only [State.withIndex, Reference.withStack, Reference.unbind, State.setThread,
        Reference.setThread, Function.update_of_ne ht] at hold ⊢
      exact hold

/-! ## Runs -/

theorem Simulates.exec {op : Op σ υ} (h : Simulates s r) (hexact : op.Exact s r t) :
    ∃ s', exec s t op = some ((r.exec t op).1, s') ∧ Simulates s' (r.exec t op).2 := by
  cases op with
  | bindSpecial symbol v =>
    obtain ⟨s', hs', hsim⟩ := h.bindSpecial (t := t) (v := v) hexact
    exact ⟨s', by rw [DynamicBinding.exec, hs']; rfl, hsim⟩
  | bindSpecialToCurrentValue symbol =>
    obtain ⟨bound, s', hs', rfl, hsim⟩ := h.bindSpecialToCurrentValue hexact
    refine ⟨s', ?_, ?_⟩
    · rw [DynamicBinding.exec, hs', Reference.exec]
      cases r.symbolValue t symbol <;> rfl
    · rw [Reference.exec]
      cases hv : r.symbolValue t symbol <;> simpa [hv] using hsim
  | setSymbolValue symbol v =>
    have hset : ∃ s', s.setSymbolValue t symbol v = some s' ∧
        Simulates s' (r.exec t (.setSymbolValue symbol v)).2 := h.setSymbolValue
    obtain ⟨s', hs', hsim⟩ := hset
    refine ⟨s', ?_, hsim⟩
    rw [DynamicBinding.exec, hs', Reference.exec]
    split <;> rfl
  | symbolValue symbol => exact ⟨s, by rw [DynamicBinding.exec, h.symbolValue]; rfl, h⟩
  | lastSpecialBinding =>
    refine ⟨s, ?_, h.value, h.next, h.index_lt, h.index_inj, fun t' => ?_⟩
    · rw [DynamicBinding.exec, State.lastSpecialBinding, (h.threads t).index]
      rfl
    · have hold := h.threads t'
      by_cases ht : t' = t
      · subst ht
        simp only [Reference.exec, Reference.setThread, Function.update_self]
        refine ⟨hold.index, hold.le, hold.even, hold.pos, hold.stored, hold.values, hold.unbound,
          hold.fresh, fun n hn => ?_⟩
        rcases List.mem_cons.1 hn with rfl | hn
        · exact ⟨_, le_rfl, rfl⟩
        · exact hold.saved n hn
      · simp only [Reference.exec, Reference.setThread, Function.update_of_ne ht]
        exact hold
  | unbindTo n =>
    obtain ⟨s', hs', hsim⟩ := h.unbindTo hexact.1 hexact.2
    exact ⟨s', by rw [DynamicBinding.exec, hs']; rfl, hsim⟩

theorem Simulates.run {ops : List (ι × Op σ υ)} (h : Simulates s r) (hmeets : Meets s r ops) :
    run s ops = some (r.run ops) := by
  induction ops generalizing s r with
  | nil => rfl
  | cons head ops ih =>
    obtain ⟨t, op⟩ := head
    obtain ⟨hexact, hrest⟩ := hmeets
    obtain ⟨s', hs', hsim⟩ := h.exec hexact
    rw [hs'] at hrest
    rw [DynamicBinding.run, hs', Option.bind_some]
    dsimp only
    rw [ih hsim hrest]
    rfl

/-- **Dynamic binding is exact**: the threads see the bindings of the reference. -/
theorem run_eq_reference (value : σ → Value υ) (ops : List (ι × Op σ υ))
    (hmeets : Meets (State.initial value) (Reference.initial value) ops) :
    run (State.initial value) ops = some ((Reference.initial value).run ops) :=
  (simulates_initial value).run hmeets

theorem run_two_threads :
    run (State.initial fun _ : Fin 2 => some 0)
      [((0 : Fin 2), .lastSpecialBinding), (0, .bindSpecial 0 (some 1)),
        (0, .bindSpecialToCurrentValue 0), (0, .setSymbolValue 0 (some 2)), (1, .symbolValue 0),
        (0, .symbolValue 0), (0, .unbindTo 0), (0, .symbolValue 0)] =
      some [.index 0, .done, .done, .done, .value (some 0), .value (some 2), .done,
        .value (some 0)] :=
  run_eq_reference (fun _ : Fin 2 => some 0)
    [((0 : Fin 2), .lastSpecialBinding), (0, .bindSpecial 0 (some 1)),
      (0, .bindSpecialToCurrentValue 0), (0, .setSymbolValue 0 (some 2)), (1, .symbolValue 0),
      (0, .symbolValue 0), (0, .unbindTo 0), (0, .symbolValue 0)] (by decide)

/-- A variable is bound to its current value and unbound again. The thread keeps a value of its
own: what it assigns to the variable afterwards is not seen by the other thread. -/
theorem bindSpecialToCurrentValue_leaves_binding :
    run (State.initial fun _ : Unit => some 1)
      [(false, .lastSpecialBinding), (false, .bindSpecialToCurrentValue ()), (false, .unbindTo 0),
        (false, .setSymbolValue () (some 2)), (true, .symbolValue ())] =
      some [.index 0, .done, .done, .done, .value (some 1)] ∧
    (Reference.initial fun _ : Unit => some 1).run
      [(false, .lastSpecialBinding), (false, .bindSpecialToCurrentValue ()), (false, .unbindTo 0),
        (false, .setSymbolValue () (some 2)), (true, .symbolValue ())] =
      [.index 0, .done, .done, .done, .value (some 2)] := by
  decide

end Xcl.DynamicBinding
