import Xcl.Interpreter.Recycled

/-!
# The targets of exits

* `Moment.Active`: the block or the tag that an exit stands for in its environment is active;
* **`exits_right`**: exits arrive at what is lexically visible, if no active block or tag of the
  same name is nearer.
-/

namespace Xcl.Interpreter

/-- The activation that RETURN-FROM and GO are meant for has not ended. -/
def Moment.Active (m : Moment) : Prop :=
  match m.step with
  | .returnFrom _ goal =>
    ∃ f, m.control.Reaches f ∧ (m.control.frames f).type = .block ∧
      goal = some (m.control.frames f).activation
  | .go _ goal tags => ∃ tag ∈ tags, goal = some tag.activation
  | _ => True

/-- No unwinding evaluates a cleanup form after it has put a frame into the pool, and no exit is to
a name that an active block or tag shadows. -/
def unshadowed : Policy where
  meets m := m.step ≠ .cleanup true ∧ m.Unshadowed

/-- **Exits arrive at what is lexically visible.** -/
theorem exits_right (specialVariable : Symbol → Bool) (symbolValue : Symbol → Option Value)
    (n : ℕ) (form : Form)
    (hclean : ∀ m ∈ (run specialVariable symbolValue n form).2.trace, m.step ≠ .cleanup true)
    (hunshadowed : ∀ m ∈ (run specialVariable symbolValue n form).2.trace, m.Unshadowed) :
    (∀ m ∈ (run specialVariable symbolValue n form).2.trace, m.Right) ∧
      ∀ e, (run specialVariable symbolValue n form).1 = .error (.error e) → ¬ e.Lost := by
  have hlexical : unshadowed.Lexical := fun _ hm => hm.2
  obtain ⟨hfinal, hhistory⟩ := run_spec (p := unshadowed) (Or.inl fun _ hm => hm.1) fun m hm =>
    ⟨hclean m hm, hunshadowed m hm⟩
  exact ⟨hhistory.right hlexical, fun e he => hfinal _ he hlexical⟩

/-! ## Checks -/

theorem Control.reaches_of_findFrame {c : Control} {q : Frame → Bool} {n : ℕ} {start : Option ℕ}
    {f : ℕ} (hfind : c.findFrame q n start = some (some f))
    (hstart : ∀ g, start = some g → c.Reaches g) : c.Reaches f ∧ q (c.frames f) := by
  induction n generalizing start with
  | zero => cases hfind
  | succ n ih =>
    cases start with
    | none => cases hfind
    | some g =>
      unfold Control.findFrame at hfind
      split at hfind
      · rename_i hq
        obtain rfl : g = f := Option.some.inj (Option.some.inj hfind)
        exact ⟨hstart g rfl, hq⟩
      · exact ih hfind fun g' hg' => .next (hstart g rfl) hg'

def Moment.isActive (m : Moment) : Bool :=
  match m.step with
  | .returnFrom _ goal =>
    match m.control.find fun frame => frame.type = .block && goal = some frame.activation with
    | some (some _) => true
    | _ => false
  | .go _ goal tags => tags.any fun tag => goal = some tag.activation
  | _ => true

theorem Moment.active_of_isActive {m : Moment} (h : m.isActive) : m.Active := by
  obtain ⟨step, c, stack⟩ := m
  cases step with
  | returnFrom name goal =>
    unfold Moment.isActive at h
    dsimp only at h
    split at h
    · rename_i f hfind
      obtain ⟨hreaches, htest⟩ := Control.reaches_of_findFrame hfind fun _ => .last
      rw [Bool.and_eq_true, decide_eq_true_iff, decide_eq_true_iff] at htest
      exact ⟨f, hreaches, htest⟩
    · cases h
  | go name goal tags =>
    obtain ⟨tag, hmem, hgoal⟩ := List.any_eq_true.1 h
    exact ⟨tag, hmem, of_decide_eq_true hgoal⟩
  | _ => trivial

/-- The exit has arrived at another activation or tag. -/
def Moment.isWrong (m : Moment) : Bool :=
  match m.step with
  | .arrive activation tag origin _ => origin.goal != some activation || origin.tag != tag
  | _ => false

theorem Moment.not_right_of_isWrong {m : Moment} (h : m.isWrong) : ¬ m.Right := by
  obtain ⟨step, c, stack⟩ := m
  cases step with
  | arrive activation tag origin delivered =>
    rintro ⟨hgoal, htag⟩
    simp [Moment.isWrong, hgoal, htag] at h
  | _ => cases h

instance IsChain.decidable (frames : ℕ → Frame) :
    (start : Option ℕ) → (chain : List ℕ) → Decidable (IsChain frames start chain)
  | start, [] => inferInstanceAs (Decidable (start = none))
  | start, f :: fs =>
    have := IsChain.decidable frames (frames f).next fs
    inferInstanceAs (Decidable (start = some f ∧ (frames f).lastControlFrame = (frames f).next ∧
      IsChain frames (frames f).next fs))

/-- The first frames of a chain. -/
def Control.walk (c : Control) : ℕ → Option ℕ → List ℕ
  | n + 1, some f => f :: c.walk n (c.frames f).next
  | _, _ => []

def Moment.isUnshadowed (m : Moment) : Bool :=
  match m.step with
  | .returnFrom name goal =>
    let chain := m.control.walk m.control.size m.control.lastControlFrame
    decide (IsChain m.control.frames m.control.lastControlFrame chain) &&
      match chain.find? fun f => (m.control.frames f).type = .block &&
          (m.control.frames f).blockName = some name with
      | some f => goal = some (m.control.frames f).activation
      | none => false
  | .go name goal tags =>
    match tags.find? fun tag => tag.name = name with
    | some tag => goal = some tag.activation
    | none => false
  | _ => true

theorem Moment.unshadowed_of_isUnshadowed {m : Moment} (h : m.isUnshadowed) :
    m.Unshadowed := by
  obtain ⟨step, c, stack⟩ := m
  cases step with
  | returnFrom name goal =>
    unfold Moment.isUnshadowed at h
    rw [Bool.and_eq_true, decide_eq_true_iff] at h
    obtain ⟨hchain, h⟩ := h
    split at h
    · rename_i f hfind
      obtain ⟨htest, before, after, heq, hbefore⟩ := List.find?_eq_some_iff_append.1 hfind
      rw [Bool.and_eq_true, decide_eq_true_iff, decide_eq_true_iff] at htest
      refine ⟨before, f, after, heq ▸ hchain, htest.1, htest.2, of_decide_eq_true h, ?_⟩
      intro g hg (htype : (c.frames g).type = .block) (hname : (c.frames g).blockName = some name)
      simpa [htype, hname] using hbefore g hg
    · cases h
  | go name goal tags =>
    unfold Moment.isUnshadowed at h
    dsimp only at h
    split at h
    · rename_i tag hfind
      obtain ⟨htest, before, after, heq, hbefore⟩ := List.find?_eq_some_iff_append.1 hfind
      refine ⟨before, tag, after, heq, of_decide_eq_true htest, of_decide_eq_true h, ?_⟩
      intro t ht hname
      simpa [hname] using hbefore t ht
    · cases h
  | _ => trivial

def Moment.isClean (m : Moment) : Bool :=
  match m.step with
  | .cleanup released => !released
  | _ => true

theorem Moment.clean_of_isClean {m : Moment} (h : m.isClean) : m.step ≠ .cleanup true := by
  intro hstep
  simp [Moment.isClean, hstep] at h

/-! ## Runs -/

/-- `(block a (funcall (lambda (f) (block b (funcall f)) 2) (lambda () (return-from a 1))))` -/
def blockAround (b : String) : Form :=
  .block (symbolNamed "A")
    [.funcall
      (.lambda [.symbol (symbolNamed "F")] []
        [.block (symbolNamed b) [.funcall (.var (symbolNamed "F")) []], .const (.number 2)])
      [.lambda [] [] [.returnFrom (symbolNamed "A") (some (.const (.number 1)))]]]

theorem exits_right_blocks :
    (∀ m ∈ (run (fun _ => false) (fun _ => none) 12 (blockAround "B")).2.trace, m.Right) ∧
      ∀ e, (run (fun _ => false) (fun _ => none) 12 (blockAround "B")).1 = .error (.error e) →
        ¬ e.Lost := by
  have hclean : (run (fun _ => false) (fun _ => none) 12 (blockAround "B")).2.trace.all
      Moment.isClean = true := by
    decide +kernel
  have hunshadowed : (run (fun _ => false) (fun _ => none) 12 (blockAround "B")).2.trace.all
      Moment.isUnshadowed = true := by
    decide +kernel
  exact exits_right _ _ _ _
    (fun m hm => Moment.clean_of_isClean (List.all_eq_true.1 hclean m hm))
    fun m hm => Moment.unshadowed_of_isUnshadowed (List.all_eq_true.1 hunshadowed m hm)

/-- **A BLOCK of the same name takes the exit**, though the block that is meant is active. -/
theorem run_blockBetween :
    ¬ ∀ specialVariable symbolValue n form,
      (∀ m ∈ (run specialVariable symbolValue n form).2.trace, m.Active) →
        ∀ m ∈ (run specialVariable symbolValue n form).2.trace, m.Right := by
  intro h
  have hactive : (run (fun _ => false) (fun _ => none) 12 (blockAround "A")).2.trace.all
      Moment.isActive = true := by
    decide +kernel
  have hwrong : (run (fun _ => false) (fun _ => none) 12 (blockAround "A")).2.trace.any
      Moment.isWrong = true := by
    decide +kernel
  obtain ⟨m, hm, hwrong⟩ := List.any_eq_true.1 hwrong
  refine Moment.not_right_of_isWrong hwrong (h _ _ _ _ (fun m hm => ?_) m hm)
  exact Moment.active_of_isActive (List.all_eq_true.1 hactive m hm)

end Xcl.Interpreter
