import Mathlib.Data.List.Chain
import Mathlib.Logic.Relation

/-!
# Cancelling neighbours in a list

An element that opens cancels with one that closes directly behind it.

* `Step`: one cancellation; `Remains`: what is left when nothing cancels any more;
* **`remains_iff`**: the pass computes what is left, so this does not depend on the order.
-/

namespace Xcl.Cancel

variable {α : Type*} (opens closes : α → Prop)

/-- One cancellation. -/
inductive Step : List α → List α → Prop
  | mk (l r : List α) {x y : α} (hx : opens x) (hy : closes y) : Step (l ++ x :: y :: r) (l ++ r)

/-- `x` may stand before `y`. -/
def Apart (x y : α) : Prop := ¬ (opens x ∧ closes y)

/-- `m` is left of `l` when nothing cancels any more. -/
structure Remains (l m : List α) : Prop where
  steps : Relation.ReflTransGen (Step opens closes) l m
  chain : m.IsChain (Apart opens closes)

variable [DecidablePred opens] [DecidablePred closes]

/-- An element meets the top of the stack. -/
def push : List α → α → List α
  | [], y => [y]
  | x :: st, y => if opens x ∧ closes y then st else y :: x :: st

def reduce (l : List α) : List α := (l.foldl (push opens closes) []).reverse

variable {opens closes} {l m st : List α} {x y : α}

theorem push_of_not_closes (hy : ¬ closes y) : push opens closes st y = y :: st := by
  cases st with
  | nil => rfl
  | cons x st => exact if_neg fun h => hy h.2

theorem push_of_opens (hx : opens x) (hy : closes y) : push opens closes (x :: st) y = st :=
  if_pos ⟨hx, hy⟩

theorem push_of_apart (h : ((y :: st).reverse).IsChain (Apart opens closes)) :
    push opens closes st y = y :: st := by
  cases st with
  | nil => rfl
  | cons x st =>
    rw [List.isChain_reverse, List.isChain_cons_cons] at h
    exact if_neg h.1

theorem chain_push (h : st.reverse.IsChain (Apart opens closes)) :
    (push opens closes st y).reverse.IsChain (Apart opens closes) := by
  rw [List.isChain_reverse] at h ⊢
  cases st with
  | nil => exact .singleton y
  | cons x st =>
    by_cases hxy : opens x ∧ closes y
    · rw [push_of_opens hxy.1 hxy.2]
      exact h.tail
    · have hpush : push opens closes (x :: st) y = y :: x :: st := if_neg hxy
      rw [hpush]
      exact List.isChain_cons_cons.mpr ⟨hxy, h⟩

theorem chain_foldl (h : st.reverse.IsChain (Apart opens closes)) :
    (l.foldl (push opens closes) st).reverse.IsChain (Apart opens closes) := by
  induction l generalizing st with
  | nil => exact h
  | cons y l ih => exact ih (chain_push h)

theorem steps_foldl :
    Relation.ReflTransGen (Step opens closes) (st.reverse ++ l)
      (l.foldl (push opens closes) st).reverse := by
  induction l generalizing st with
  | nil => rw [List.append_nil]; exact .refl
  | cons y l ih =>
    cases st with
    | nil => exact @ih [y]
    | cons x st =>
      by_cases hxy : opens x ∧ closes y
      · have hstep : Step opens closes ((x :: st).reverse ++ y :: l) (st.reverse ++ l) := by
          have h : Step opens closes (st.reverse ++ x :: y :: l) (st.reverse ++ l) :=
            .mk st.reverse l hxy.1 hxy.2
          simpa using h
        rw [List.foldl_cons, push_of_opens hxy.1 hxy.2]
        exact ih.head hstep
      · have hpush : push opens closes (x :: st) y = y :: x :: st := if_neg hxy
        have h := @ih (y :: x :: st)
        rw [List.foldl_cons, hpush]
        simpa using h

/-- On a list where nothing cancels the pass changes nothing. -/
theorem foldl_of_chain (h : (st.reverse ++ l).IsChain (Apart opens closes)) :
    l.foldl (push opens closes) st = l.reverse ++ st := by
  induction l generalizing st with
  | nil => rfl
  | cons y l ih =>
    have hcons : ((y :: st).reverse ++ l).IsChain (Apart opens closes) := by simpa using h
    rw [List.foldl_cons, push_of_apart hcons.left_of_append, ih hcons]
    simp

theorem reduce_of_chain (h : l.IsChain (Apart opens closes)) : reduce opens closes l = l := by
  have hfold : l.foldl (push opens closes) [] = l.reverse ++ [] := foldl_of_chain h
  rw [reduce, hfold, List.append_nil, List.reverse_reverse]

theorem mem_push (h : x ∈ push opens closes st y) : x ∈ y :: st := by
  cases st with
  | nil => exact h
  | cons z st =>
    by_cases hzy : opens z ∧ closes y
    · rw [push_of_opens hzy.1 hzy.2] at h
      exact List.mem_cons_of_mem _ (List.mem_cons_of_mem _ h)
    · have hpush : push opens closes (z :: st) y = y :: z :: st := if_neg hzy
      rwa [hpush] at h

theorem mem_foldl (h : x ∈ l.foldl (push opens closes) st) : x ∈ st ∨ x ∈ l := by
  induction l generalizing st with
  | nil => exact .inl h
  | cons y l ih =>
    rcases ih h with hst | hl
    · rcases List.mem_cons.mp (mem_push hst) with rfl | hst
      · exact .inr List.mem_cons_self
      · exact .inl hst
    · exact .inr (List.mem_cons_of_mem _ hl)

theorem mem_of_mem_reduce (h : x ∈ reduce opens closes l) : x ∈ l :=
  (mem_foldl (List.mem_reverse.mp h)).resolve_left List.not_mem_nil

theorem chain_reduce : (reduce opens closes l).IsChain (Apart opens closes) := chain_foldl .nil

/-- What stands behind an element that opens is not touched by what comes before. -/
theorem reduce_append (hx : opens x) (h : (x :: m).IsChain (Apart opens closes)) :
    reduce opens closes (l ++ m) = reduce opens closes l ++ m := by
  have hchain : (reduce opens closes l ++ m).IsChain (Apart opens closes) := by
    refine List.isChain_append.mpr ⟨chain_reduce, h.tail, fun a _ y hy hay => ?_⟩
    cases m with
    | nil => cases hy
    | cons z m =>
      cases hy
      exact (List.isChain_cons_cons.mp h).1 ⟨hx, hay.2⟩
  rw [reduce, List.foldl_append, foldl_of_chain hchain, List.reverse_append, List.reverse_reverse]
  rfl

theorem reduce_step (hdisj : ∀ x, opens x → ¬ closes x) (h : Step opens closes l m) :
    reduce opens closes l = reduce opens closes m := by
  obtain ⟨l, r, hx, hy⟩ := h
  unfold reduce
  rw [List.foldl_append, List.foldl_append, List.foldl_cons, List.foldl_cons,
    push_of_not_closes (hdisj _ hx), push_of_opens hx hy]

/-- **The pass computes what is left.** -/
theorem remains_iff (hdisj : ∀ x, opens x → ¬ closes x) :
    Remains opens closes l m ↔ reduce opens closes l = m := by
  constructor
  · rintro ⟨hsteps, hchain⟩
    have heq : reduce opens closes l = reduce opens closes m := by
      clear hchain
      induction hsteps with
      | refl => rfl
      | tail _ hstep ih => exact ih.trans (reduce_step hdisj hstep)
    rw [heq, reduce_of_chain hchain]
  · rintro rfl
    have hsteps : Relation.ReflTransGen (Step opens closes) ([].reverse ++ l)
        (l.foldl (push opens closes) []).reverse := steps_foldl
    exact ⟨hsteps, chain_reduce⟩

end Xcl.Cancel
