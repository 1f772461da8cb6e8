import Mathlib.Data.List.Basic
import Mathlib.Logic.Function.Basic

/-!
# Special variables and threads

* `Thread`: the array of thread-local values and the stack on which the shadowed ones are saved.

`none` as a `Value` is `NULL_VALUE`, and `none` as a thread-local value is `NO_THREAD_LOCAL_VALUE`.
An operation that leaves the array of thread-local values, follows a null pointer or ends the
process has no result.
-/

namespace Xcl.DynamicBinding

variable {σ υ ι : Type} [DecidableEq σ] [DecidableEq ι]

/-! ## Data -/

def maxThreadLocalValues : ℕ := 4096

def initialBindingStackSize : ℕ := 4096

/-- A value that may be `NULL_VALUE`. -/
abbrev Value (υ : Type) : Type := Option υ

inductive Entry (σ υ : Type)
  | zero
  | value (v : Option (Value υ))
  | name (symbol : σ)

structure Thread (σ υ : Type) where
  threadLocalValues : ℕ → Option (Value υ)
  bindingStackBase : ℕ → Entry σ υ
  bindingStackIndex : ℕ
  bindingStackCapacity : ℕ

def Thread.new : Thread σ υ where
  threadLocalValues := fun _ => none
  bindingStackBase := fun _ => .zero
  bindingStackIndex := 0
  bindingStackCapacity := initialBindingStackSize

structure State (σ υ ι : Type) where
  value : σ → Value υ
  bindingIndex : σ → ℕ
  nextBindingIndex : ℕ
  threads : ι → Thread σ υ

/-- No thread has bound a symbol. -/
def State.initial (value : σ → Value υ) : State σ υ ι where
  value := value
  bindingIndex := fun _ => 0
  nextBindingIndex := 1
  threads := fun _ => .new

/-! ## One thread -/

namespace Thread

def threadLocalValue (thread : Thread σ υ) (i : ℕ) : Option (Option (Value υ)) :=
  if i < maxThreadLocalValues then some (thread.threadLocalValues i) else none

def setThreadLocalValue (thread : Thread σ υ) (i : ℕ) (v : Option (Value υ)) :
    Option (Thread σ υ) :=
  if i < maxThreadLocalValues then
    some { thread with threadLocalValues := Function.update thread.threadLocalValues i v }
  else none

def push (thread : Thread σ υ) (v : Option (Value υ)) (symbol : σ) : Thread σ υ :=
  let index := thread.bindingStackIndex
  { thread with
    bindingStackBase :=
      Function.update (Function.update thread.bindingStackBase index (.value v)) (index + 1)
        (.name symbol)
    bindingStackIndex := index + 2 }

/-- The old entries are copied to a base of twice the size. -/
def grow (thread : Thread σ υ) : Thread σ υ :=
  if thread.bindingStackIndex ≥ thread.bindingStackCapacity then
    { thread with
      bindingStackBase := fun n =>
        if n < thread.bindingStackCapacity then thread.bindingStackBase n else .zero
      bindingStackCapacity := thread.bindingStackCapacity * 2 }
  else thread

def clear (thread : Thread σ υ) (n : ℕ) : Thread σ υ :=
  { thread with bindingStackBase := Function.update thread.bindingStackBase n .zero }

end Thread

/-! ## The operations -/

namespace State

def setThread (s : State σ υ ι) (t : ι) (thread : Thread σ υ) : State σ υ ι :=
  { s with threads := Function.update s.threads t thread }

def assignBindingIndex (s : State σ υ ι) (symbol : σ) : State σ υ ι :=
  if s.bindingIndex symbol = 0 then
    { s with
      bindingIndex := Function.update s.bindingIndex symbol s.nextBindingIndex
      nextBindingIndex := s.nextBindingIndex + 1 }
  else s

def symbolThreadLocalValue (s : State σ υ ι) (t : ι) (symbol : σ) : Option (Option (Value υ)) :=
  if s.bindingIndex symbol = 0 then some none
  else (s.threads t).threadLocalValue (s.bindingIndex symbol)

def setSymbolThreadLocalValue (s : State σ υ ι) (t : ι) (symbol : σ) (v : Option (Value υ)) :
    Option (State σ υ ι) :=
  let s := s.assignBindingIndex symbol
  ((s.threads t).setThreadLocalValue (s.bindingIndex symbol) v).map (s.setThread t)

def slowBindSpecial (s : State σ υ ι) (t : ι) (symbol : σ) (v : Value υ) : Option (State σ υ ι) :=
  let thread := (s.threads t).grow
  (s.symbolThreadLocalValue t symbol).bind fun old =>
    (s.setThread t (thread.push old symbol)).setSymbolThreadLocalValue t symbol (some v)

def bindSpecial (s : State σ υ ι) (t : ι) (symbol : σ) (v : Value υ) : Option (State σ υ ι) :=
  if (s.threads t).bindingStackIndex < (s.threads t).bindingStackCapacity then
    let old := if s.bindingIndex symbol = 0 then some none
      else (s.threads t).threadLocalValue (s.bindingIndex symbol)
    let s := s.assignBindingIndex symbol
    old.bind fun old =>
      (((s.threads t).push old symbol).setThreadLocalValue (s.bindingIndex symbol) (some v)).map
        (s.setThread t)
  else s.slowBindSpecial t symbol v

/-- The value that `bind_special_to_current_value` finds. -/
def currentValue (s : State σ υ ι) (t : ι) (symbol : σ) : Option (Value υ) :=
  if 0 < s.bindingIndex symbol then
    ((s.threads t).threadLocalValue (s.bindingIndex symbol)).map (·.getD (s.value symbol))
  else some (s.value symbol)

/-- The result says whether the variable has a value. -/
def bindSpecialToCurrentValue (s : State σ υ ι) (t : ι) (symbol : σ) :
    Option (Bool × State σ υ ι) :=
  (s.currentValue t symbol).bind fun v =>
    let s := s.assignBindingIndex symbol
    if v.isNone then some (false, s)
    else if (s.threads t).bindingStackIndex < (s.threads t).bindingStackCapacity then
      (((s.threads t).push (some v) symbol).setThreadLocalValue (s.bindingIndex symbol)
        (some v)).map fun thread => (true, s.setThread t thread)
    else (s.slowBindSpecial t symbol v).map fun s => (true, s)

def symbolValue (s : State σ υ ι) (t : ι) (symbol : σ) : Option (Value υ) :=
  (s.symbolThreadLocalValue t symbol).map (·.getD (s.value symbol))

def setSymbolValue (s : State σ υ ι) (t : ι) (symbol : σ) (v : Value υ) : Option (State σ υ ι) :=
  (s.symbolThreadLocalValue t symbol).bind fun old =>
    if old.isSome then s.setSymbolThreadLocalValue t symbol (some v)
    else some { s with value := Function.update s.value symbol v }

def lastSpecialBinding (s : State σ υ ι) (t : ι) : ℕ := (s.threads t).bindingStackIndex

/-- The loop of `unbind_to`; the last argument is `index`. -/
def unbindLoop (t : ι) (n : ℕ) (s : State σ υ ι) : ℕ → Option (State σ υ ι)
  | 0 => some s
  | 1 => if 1 > n then none else some s
  | index + 2 =>
    if index + 2 > n then
      match (s.threads t).bindingStackBase (index + 1), (s.threads t).bindingStackBase index with
      | .name symbol, .value v =>
        let thread := ((s.threads t).clear (index + 1)).clear index
        ((s.setThread t thread).setSymbolThreadLocalValue t symbol v).bind fun s =>
          unbindLoop t n s index
      | _, _ => none
    else some s

/-- The process exits when `n` is not below the capacity. -/
def unbindTo (s : State σ υ ι) (t : ι) (n : ℕ) : Option (State σ υ ι) :=
  if n ≥ (s.threads t).bindingStackCapacity then none
  else
    (unbindLoop t n s (s.threads t).bindingStackIndex).map fun s =>
      s.setThread t { s.threads t with bindingStackIndex := n }

end State

inductive Op (σ υ : Type)
  | bindSpecial (symbol : σ) (v : Value υ)
  | bindSpecialToCurrentValue (symbol : σ)
  | setSymbolValue (symbol : σ) (v : Value υ)
  | symbolValue (symbol : σ)
  | lastSpecialBinding
  | unbindTo (n : ℕ)

inductive Reply (υ : Type)
  | done
  | value (v : Value υ)
  | index (n : ℕ)
  /-- The error that `bind_special_to_current_value` signals. -/
  | unboundVariable
  deriving DecidableEq

/-- One operation of a thread. -/
def exec (s : State σ υ ι) (t : ι) : Op σ υ → Option (Reply υ × State σ υ ι)
  | .bindSpecial symbol v => (s.bindSpecial t symbol v).map fun s => (.done, s)
  | .bindSpecialToCurrentValue symbol =>
    (s.bindSpecialToCurrentValue t symbol).map fun (bound, s) =>
      (if bound then .done else .unboundVariable, s)
  | .setSymbolValue symbol v => (s.setSymbolValue t symbol v).map fun s => (.done, s)
  | .symbolValue symbol => (s.symbolValue t symbol).map fun v => (.value v, s)
  | .lastSpecialBinding => some (.index (s.lastSpecialBinding t), s)
  | .unbindTo n => (s.unbindTo t n).map fun s => (.done, s)

/-- The replies to an interleaving of operations. -/
def run (s : State σ υ ι) : List (ι × Op σ υ) → Option (List (Reply υ))
  | [] => some []
  | (t, op) :: ops => (exec s t op).bind fun (reply, s) => (run s ops).map (reply :: ·)

/-! ## The reference -/

/-- The bindings of a thread, the last one first, and the depths that were saved and not passed by
an unbinding since. -/
structure Bindings (σ υ : Type) where
  stack : List (σ × Value υ)
  saved : List ℕ

structure Reference (σ υ ι : Type) where
  value : σ → Value υ
  threads : ι → Bindings σ υ

namespace Reference

def initial (value : σ → Value υ) : Reference σ υ ι where
  value := value
  threads := fun _ => ⟨[], []⟩

/-- The binding of a symbol that is in force. -/
def lookup (symbol : σ) : List (σ × Value υ) → Option (Value υ)
  | [] => none
  | (name, v) :: rest => if name = symbol then some v else lookup symbol rest

def assign (symbol : σ) (v : Value υ) : List (σ × Value υ) → List (σ × Value υ)
  | [] => []
  | (name, old) :: rest =>
    if name = symbol then (name, v) :: rest else (name, old) :: assign symbol v rest

def symbolValue (r : Reference σ υ ι) (t : ι) (symbol : σ) : Value υ :=
  (lookup symbol (r.threads t).stack).getD (r.value symbol)

def setThread (r : Reference σ υ ι) (t : ι) (bindings : Bindings σ υ) : Reference σ υ ι :=
  { r with threads := Function.update r.threads t bindings }

def bind (r : Reference σ υ ι) (t : ι) (symbol : σ) (v : Value υ) : Reference σ υ ι :=
  r.setThread t { r.threads t with stack := (symbol, v) :: (r.threads t).stack }

/-- A binding takes two entries of the stack. -/
def depth (r : Reference σ υ ι) (t : ι) : ℕ := 2 * (r.threads t).stack.length

def unbind (r : Reference σ υ ι) (t : ι) (n : ℕ) : Reference σ υ ι :=
  r.setThread t
    { stack := (r.threads t).stack.drop ((r.threads t).stack.length - n / 2)
      saved := (r.threads t).saved.filter (· ≤ n) }

def exec (r : Reference σ υ ι) (t : ι) : Op σ υ → Reply υ × Reference σ υ ι
  | .bindSpecial symbol v => (.done, r.bind t symbol v)
  | .bindSpecialToCurrentValue symbol =>
    let v := r.symbolValue t symbol
    if v.isNone then (.unboundVariable, r) else (.done, r.bind t symbol v)
  | .setSymbolValue symbol v =>
    if (lookup symbol (r.threads t).stack).isSome then
      (.done, r.setThread t
        { r.threads t with stack := assign symbol v (r.threads t).stack })
    else (.done, { r with value := Function.update r.value symbol v })
  | .symbolValue symbol => (.value (r.symbolValue t symbol), r)
  | .lastSpecialBinding =>
    (.index (r.depth t),
      r.setThread t { r.threads t with saved := r.depth t :: (r.threads t).saved })
  | .unbindTo n => (.done, r.unbind t n)

def run (r : Reference σ υ ι) : List (ι × Op σ υ) → List (Reply υ)
  | [] => []
  | (t, op) :: ops => (r.exec t op).1 :: run (r.exec t op).2 ops

end Reference

end Xcl.DynamicBinding
