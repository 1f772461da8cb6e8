import Xcl.Interpreter.Target

/-!
# Evaluation is neutral

* `Thread.Ready`: the frames, tags and bindings of a thread belong together;
* **`eval_neutral`**: an evaluation that ends with a value leaves the bindings, the control frames
  and the tags as they were, if no closure binds a parameter as a special variable.
-/

namespace Xcl.Interpreter

open Xcl.Exits

structure Thread.Ready (s : Thread) (chain : List ℕ) : Prop where
  chained : Chained s.control chain
  depth : ∀ f ∈ chain, (s.control.frames f).lastSpecialBinding ≤ s.bindingStack.length
  tagsOf : TagsOf s.control.frames chain s.lastTag
  savedTagsOf : ∀ before f after, chain = before ++ f :: after →
    TagsOf s.control.frames after (s.control.frames f).lastTag

def Thread.context (s : Thread) (chain : List ℕ) : Context where
  frame := s.control.frames
  chain := chain
  tags := s.lastTag
  stack := s.bindingStack

theorem Thread.Ready.at {p : Policy} {s : Thread} {chain : List ℕ} (h : s.Ready chain)
    (htrace : s.trace = []) : At p (s.context chain) s where
  ok := ⟨h.depth, h.tagsOf, h.savedTagsOf⟩
  chained := h.chained
  frames _ _ := rfl
  tags := rfl
  stack := List.suffix_refl _
  exact _ := rfl
  history := by
    rw [htrace]
    exact ⟨fun _ m hm => absurd hm List.not_mem_nil, fun _ m hm => absurd hm List.not_mem_nil⟩

theorem ready_new (specialVariable : Symbol → Bool) (symbolValue : Symbol → Option Value) :
    (Thread.new specialVariable symbolValue).Ready [] := by
  have h := at_new unshadowed specialVariable symbolValue
  exact ⟨h.chained, h.ok.depth, h.ok.tagsOf, h.ok.savedTagsOf⟩

/-- No closure has a special variable among its parameters. -/
def noSpecialParameter : Policy where
  meets m := m.step ≠ .cleanup true ∧ ∀ name, m.step ≠ .bindParameter name

/-- **An evaluation that ends with a value is neutral.** -/
theorem eval_neutral (n : ℕ) (form : Form) (env : ℕ) (s s' : Thread) (chain : List ℕ) (v : Value)
    (hready : s.Ready chain) (htrace : s.trace = []) (heval : eval n form env s = (.ok v, s'))
    (hclean : ∀ m ∈ s'.trace, m.step ≠ .cleanup true)
    (hparameters : ∀ m ∈ s'.trace, ∀ name, m.step ≠ .bindParameter name) :
    s'.bindingStack = s.bindingStack ∧ s'.lastTag = s.lastTag ∧
      s'.control.lastControlFrame = s.control.lastControlFrame ∧ Chained s'.control chain ∧
      ∀ f ∈ chain, (s'.control.frames f).core = (s.control.frames f).core := by
  have hpost := (sound_eval (p := noSpecialParameter) (Or.inl fun _ hm => hm.1) n form env
    (s.context chain) s).2 (hready.at htrace)
  rw [heval] at hpost
  have hat := hpost fun m hm => ⟨hclean m hm, hparameters m hm⟩
  refine ⟨hat.exact fun _ hm => hm.2, hat.tags, ?_, hat.chained, hat.frames⟩
  exact hat.chained.head?_eq.trans hready.chained.head?_eq.symm

/-! ## Runs -/

/-- `(funcall (lambda (x) x) 5)` -/
def callOfLambda : Form :=
  .funcall (.lambda [.symbol (symbolNamed "X")] [] [.var (symbolNamed "X")]) [.const (.number 5)]

/-- How many bindings there are after an evaluation that ends with a value. -/
def bindingsAfter : Except Exit Value × Thread → Option ℕ
  | (.ok _, s) => some s.bindingStack.length
  | (.error _, _) => none

theorem exists_of_bindingsAfter {r : Except Exit Value × Thread} {k : ℕ}
    (h : bindingsAfter r = some k) : ∃ v, r = (.ok v, r.2) ∧ r.2.bindingStack.length = k := by
  obtain ⟨result, s⟩ := r
  cases result with
  | ok v => exact ⟨v, rfl, Option.some.inj h⟩
  | error e => cases h

def Moment.isBindParameter (m : Moment) : Bool :=
  match m.step with
  | .bindParameter _ => true
  | _ => false

theorem Moment.not_bindParameter {m : Moment} (h : m.isBindParameter = false) (name : Symbol) :
    m.step ≠ .bindParameter name := by
  intro hstep
  simp [Moment.isBindParameter, hstep] at h

theorem eval_neutral_call :
    ∃ v s', run (fun _ => false) (fun _ => none) 8 callOfLambda = (.ok v, s') ∧
      s'.bindingStack = [] ∧ s'.lastTag = [] ∧ s'.control.lastControlFrame = none := by
  have hafter : bindingsAfter (run (fun _ => false) (fun _ => none) 8 callOfLambda) = some 0 := by
    decide +kernel
  have hsteps : (run (fun _ => false) (fun _ => none) 8 callOfLambda).2.trace.all
      (fun m => m.isClean && !m.isBindParameter) = true := by
    decide +kernel
  have hmoment : ∀ m ∈ (run (fun _ => false) (fun _ => none) 8 callOfLambda).2.trace,
      m.isClean ∧ m.isBindParameter = false := by
    intro m hm
    simpa using List.all_eq_true.1 hsteps m hm
  obtain ⟨v, hrun, -⟩ := exists_of_bindingsAfter hafter
  obtain ⟨hstack, htags, hlast, -⟩ := eval_neutral _ _ _ _ _ [] v (ready_new _ _) rfl hrun
    (fun m hm => Moment.clean_of_isClean (hmoment m hm).1)
    fun m hm => Moment.not_bindParameter (hmoment m hm).2
  exact ⟨v, _, hrun, hstack, htags, hlast⟩

/-- **The binding of a special parameter is left on the stack.** -/
theorem run_specialParameter :
    ¬ ∀ specialVariable symbolValue n form v s',
      run specialVariable symbolValue n form = (.ok v, s') → s'.bindingStack = [] := by
  intro h
  have hafter : bindingsAfter (run (fun _ => true) (fun _ => none) 8 callOfLambda) = some 1 := by
    decide +kernel
  obtain ⟨v, hrun, hlength⟩ := exists_of_bindingsAfter hafter
  rw [h _ _ _ _ _ _ hrun] at hlength
  cases hlength

end Xcl.Interpreter
