import Xcl.Interpreter.Chain

/-!
# The context of an evaluation

* `Policy`: what is assumed of the steps of a run; no unwinding evaluates a cleanup form after it
  has put a frame into the pool;
* `Context`, `At`: the control frames, the tags and the bindings that an evaluation finds and
  leaves.
-/

namespace Xcl.Interpreter

open Xcl.Exits Comp

/-! ## Assumptions -/

/-- An exit by name finds the activation that is lexically visible: no block and no tag of the name
is nearer. -/
def Moment.Unshadowed (m : Moment) : Prop :=
  match m.step with
  | .returnFrom name goal =>
    ∃ before f after, IsChain m.control.frames m.control.lastControlFrame (before ++ f :: after) ∧
      (m.control.frames f).type = .block ∧ (m.control.frames f).blockName = some name ∧
      goal = some (m.control.frames f).activation ∧
      ∀ g ∈ before, (m.control.frames g).type = .block →
        (m.control.frames g).blockName ≠ some name
  | .go name goal tags =>
    ∃ before tag after, tags = before ++ tag :: after ∧ tag.name = name ∧
      goal = some tag.activation ∧ ∀ t ∈ before, t.name ≠ name
  | _ => True

/-- An exit arrives at the activation, and at the tag, that it is meant for. -/
def Moment.Right (m : Moment) : Prop :=
  match m.step with
  | .arrive activation tag origin _ => origin.goal = some activation ∧ origin.tag = tag
  | _ => True

structure Policy where
  meets : Moment → Prop

namespace Policy

variable (p : Policy)

/-- When an unwinding puts a frame into the pool the frame is not live. -/
def Whole : Prop := ∀ m, p.meets m → ∀ f, m.step = .release f → m.control.Recycled

/-- No unwinding evaluates a cleanup form while a live frame is in the pool. -/
def Clean : Prop := (∀ m, p.meets m → m.step ≠ .cleanup true) ∨ p.Whole

/-- No closure has a special variable among its parameters. -/
def NoBind : Prop := ∀ m, p.meets m → ∀ name, m.step ≠ .bindParameter name

/-- Every exit by name is to what is lexically visible. -/
def Lexical : Prop := ∀ m, p.meets m → m.Unshadowed

def guard : Guard Thread where
  le s s' := s.trace <:+ s'.trace
  ok s := ∀ m ∈ s.trace, p.meets m
  refl s := List.suffix_refl s.trace
  trans _ _ _ := List.IsSuffix.trans
  ok_of_le _ _ h hok m hm := hok m (h.subset hm)

end Policy

structure History (p : Policy) (trace : List Moment) : Prop where
  chained : p.Whole → ∀ m ∈ trace, (∃ chain, Chained m.control chain) ∧ ∀ f, m.step ≠ .release f
  right : p.Lexical → ∀ m ∈ trace, m.Right

/-! ## Contexts -/

/-- A frame apart from the cleanup forms that are still to be evaluated. -/
def Frame.core (frame : Frame) : Frame := { frame with cleanupForms := [] }

theorem Frame.eq_of_core {frame frame' : Frame} {α : Type} (h : frame.core = frame'.core)
    (field : Frame → α) (hfield : ∀ x : Frame, field x.core = field x) :
    field frame = field frame' := by
  rw [← hfield frame, ← hfield frame', h]

def TagsOf (frame : ℕ → Frame) (chain : List ℕ) (tags : List Tag) : Prop :=
  ∀ tag ∈ tags, tag.tagbody ∈ chain ∧ (frame tag.tagbody).type = .tagbody ∧
    (frame tag.tagbody).activation = tag.activation

structure Context where
  frame : ℕ → Frame
  chain : List ℕ
  tags : List Tag
  stack : List (Option Value × Symbol)

structure Context.Ok (k : Context) : Prop where
  depth : ∀ f ∈ k.chain, (k.frame f).lastSpecialBinding ≤ k.stack.length
  tagsOf : TagsOf k.frame k.chain k.tags
  savedTagsOf : ∀ before f after, k.chain = before ++ f :: after →
    TagsOf k.frame after (k.frame f).lastTag

def Context.Frames (k : Context) (c : Control) (chain : List ℕ) : Prop :=
  ∀ f ∈ chain, (c.frames f).core = (k.frame f).core

structure At (p : Policy) (k : Context) (s : Thread) : Prop where
  ok : k.Ok
  chained : Chained s.control k.chain
  frames : k.Frames s.control k.chain
  tags : s.lastTag = k.tags
  stack : k.stack <:+ s.bindingStack
  exact : p.NoBind → s.bindingStack = k.stack
  history : History p s.trace

/-- The context of the frame `f` is in force again. -/
structure Arrived (p : Policy) (k : Context) (f : ℕ) (after : List ℕ) (s : Thread) : Prop where
  chained : ChainedFrom s.control (some f) (f :: after)
  last : s.control.lastControlFrame =
    if (k.frame f).type = .tagbody then some f else (k.frame f).lastControlFrame
  frames : k.Frames s.control (f :: after)
  tags : (k.frame f).type ≠ .tagbody → s.lastTag = (k.frame f).lastTag
  stack : s.bindingStack = k.stack.drop (k.stack.length - (k.frame f).lastSpecialBinding)
  history : History p s.trace

/-- A jump to the frame `f` is for its activation, and for a tag of it. -/
structure Jumped (p : Policy) (k : Context) (f index : ℕ) (origin : Origin) : Prop where
  type : (k.frame f).type ≠ .unwindProtect
  goal : p.Lexical → origin.goal = some (k.frame f).activation
  tag : if (k.frame f).type = .tagbody then
      ∃ tag ∈ k.tags, tag.tagbody = f ∧ tag.index = index ∧ origin.tag = some tag.name
    else origin.tag = none

/-- The error says that no block or no tag of a name is active. -/
def LispError.Lost : LispError → Prop
  | .noBlock _ | .noTag _ => True
  | _ => False

/-- What holds where an evaluation leaves. -/
def Left (p : Policy) (k : Context) : Exit → Thread → Prop
  | .jump f index origin, s =>
    ∃ before after, k.chain = before ++ f :: after ∧ Arrived p k f after s ∧
      Jumped p k f index origin
  | .int3, _ => False
  | .error e, s => History p s.trace ∧ (p.Lexical → ¬ e.Lost)
  | _, s => History p s.trace

/-- A computation keeps its context, or leaves it by an exit to one of its frames. -/
def Keeps {α : Type} (p : Policy) (m : Interp α) : Prop :=
  ∀ k, Triple p.guard (At p k) m (fun _ => At p k) (Left p k)

def Sound (p : Policy) (ev : Form → ℕ → Interp Value) : Prop := ∀ form env, Keeps p (ev form env)

variable {p : Policy} {k : Context}

/-! ## Silent computations -/

structure Same (s s' : Thread) : Prop where
  control : s'.control = s.control
  lastTag : s'.lastTag = s.lastTag
  bindingStack : s'.bindingStack = s.bindingStack
  trace : s'.trace = s.trace

theorem Same.trans {s₁ s₂ s₃ : Thread} (h : Same s₁ s₂) (h' : Same s₂ s₃) : Same s₁ s₃ :=
  ⟨h'.control.trans h.control, h'.lastTag.trans h.lastTag,
    h'.bindingStack.trans h.bindingStack, h'.trace.trans h.trace⟩

def Silent {α : Type} (m : Interp α) : Prop :=
  ∀ s, ∃ a s', m s = (.ok a, s') ∧ Same s s'

theorem silent_pure {α : Type} (a : α) : Silent (pure a : Interp α) :=
  fun s => ⟨a, s, rfl, rfl, rfl, rfl, rfl⟩

theorem silent_get : Silent (Comp.get : Interp Thread) :=
  fun s => ⟨s, s, rfl, rfl, rfl, rfl, rfl⟩

theorem silent_modify {f : Thread → Thread} (h : ∀ s, Same s (f s)) :
    Silent (Comp.modify f : Interp Unit) := fun s => ⟨(), f s, rfl, h s⟩

theorem Silent.bind {α β : Type} {m : Interp α} {f : α → Interp β} (hm : Silent m)
    (hf : ∀ a, Silent (f a)) : Silent (m >>= f) := by
  intro s
  obtain ⟨a, s₁, hm, hs₁⟩ := hm s
  obtain ⟨b, s₂, hf, hs₂⟩ := hf a s₁
  refine ⟨b, s₂, ?_, hs₁.trans hs₂⟩
  change Comp.bind m f s = _
  rw [Comp.bind, hm]
  exact hf

theorem Silent.triple {α : Type} {m : Interp α} (hm : Silent m) {P : Thread → Prop}
    (hP : ∀ s s', Same s s' → P s → P s') {E : Exit → Thread → Prop} :
    Triple p.guard P m (fun _ => P) E := by
  intro s
  obtain ⟨a, s', hm, hsame⟩ := hm s
  rw [hm]
  refine ⟨?_, fun hp _ => hP s s' hsame hp⟩
  change s.trace <:+ s'.trace
  rw [hsame.trace]

theorem At.same {s s' : Thread} (hsame : Same s s') (h : At p k s) : At p k s' := by
  refine ⟨h.ok, ?_, ?_, ?_, ?_, ?_, ?_⟩
  · rw [hsame.control]
    exact h.chained
  · rw [hsame.control]
    exact h.frames
  · rw [hsame.lastTag]
    exact h.tags
  · rw [hsame.bindingStack]
    exact h.stack
  · rw [hsame.bindingStack]
    exact h.exact
  · rw [hsame.trace]
    exact h.history

theorem Silent.keeps {α : Type} {m : Interp α} (hm : Silent m) : Keeps p m := fun _ =>
  hm.triple fun _ _ => At.same

theorem silent_clearValues : Silent clearValues := fun _ => ⟨_, _, rfl, rfl, rfl, rfl, rfl⟩

theorem silent_setValue (v : Value) : Silent (setValue v) :=
  fun _ => ⟨_, _, rfl, rfl, rfl, rfl, rfl⟩

theorem silent_setValues (v : Values) : Silent (setValues v) :=
  fun _ => ⟨_, _, rfl, rfl, rfl, rfl, rfl⟩

theorem silent_setValuesArray (args : List Value) : Silent (setValuesArray args) :=
  fun _ => ⟨_, _, rfl, rfl, rfl, rfl, rfl⟩

theorem silent_setSymbolValue (name : Symbol) (v : Value) : Silent (setSymbolValue name v) := by
  apply silent_modify
  intro s
  split <;> exact ⟨rfl, rfl, rfl, rfl⟩

theorem silent_newEnvironment (parent : ℕ) : Silent (newEnvironment parent) :=
  fun _ => ⟨_, _, rfl, rfl, rfl, rfl, rfl⟩

theorem silent_changeEnvironment (env : ℕ) (f : Environment → Environment) :
    Silent (changeEnvironment env f) := fun _ => ⟨_, _, rfl, rfl, rfl, rfl, rfl⟩

theorem silent_bindLexical (env : ℕ) (name : Symbol) (v : Value) :
    Silent (bindLexical env name v) := fun _ => ⟨_, _, rfl, rfl, rfl, rfl, rfl⟩

theorem silent_declareSpecials (env : ℕ) (names : List Symbol) :
    Silent (declareSpecials env names) := by
  induction names with
  | nil => exact silent_pure ()
  | cons name names ih => exact (silent_changeEnvironment _ _).bind fun _ => ih

theorem silent_setCell (cell : ℕ) (v : Value) : Silent (setCell cell v) :=
  fun _ => ⟨_, _, rfl, rfl, rfl, rfl, rfl⟩

theorem silent_makeObject (o : Object) : Silent (makeObject o) :=
  fun _ => ⟨_, _, rfl, rfl, rfl, rfl, rfl⟩

theorem silent_newActivation : Silent newActivation :=
  fun _ => ⟨_, _, rfl, rfl, rfl, rfl, rfl⟩

/-! ## Changes of the control frames -/

theorem triple_changeControl {f : Control → Control} {step : Step} {P : Thread → Prop}
    {Q : Unit → Thread → Prop} {E : Exit → Thread → Prop}
    (h : ∀ s, P s → p.meets ⟨step, f s.control, s.bindingStack⟩ →
      Q () { s with
        control := f s.control
        trace := ⟨step, f s.control, s.bindingStack⟩ :: s.trace }) :
    Triple p.guard P (changeControl f step) Q E :=
  triple_modify (fun s => List.suffix_cons _ s.trace)
    fun s hp hok => h s hp (hok _ List.mem_cons_self)

theorem History.cons {trace : List Moment} {m : Moment} {chain : List ℕ} (h : History p trace)
    (hchained : p.Whole → Chained m.control chain) (hright : p.Lexical → m.Right)
    (hstep : ∀ f, m.step ≠ .release f := by simp) : History p (m :: trace) where
  chained hp m' hm' := by
    rcases List.mem_cons.1 hm' with rfl | hm'
    · exact ⟨⟨chain, hchained hp⟩, hstep⟩
    · exact h.chained hp m' hm'
  right hp m' hm' := by
    rcases List.mem_cons.1 hm' with rfl | hm'
    · exact hright hp
    · exact h.right hp m' hm'

theorem At.change {s : Thread} {c : Control} {m : Moment} (h : At p k s)
    (hchained : Chained c k.chain)
    (hframes : ∀ f ∈ k.chain, (c.frames f).core = (s.control.frames f).core)
    (hm : m.control = c) (hright : p.Lexical → m.Right)
    (hstep : ∀ f, m.step ≠ .release f := by simp) :
    At p k { s with control := c, trace := m :: s.trace } where
  ok := h.ok
  chained := hchained
  frames f hf := (hframes f hf).trans (h.frames f hf)
  tags := h.tags
  stack := h.stack
  exact := h.exact
  history := h.history.cons (fun _ => hm ▸ hchained) hright hstep

theorem triple_recordRight {step : Step} {E : Exit → Thread → Prop}
    (hstep : ∀ f, step ≠ .release f := by simp) :
    Triple p.guard (fun s => (∀ m : Moment, m.step = step → p.Lexical → m.Right) ∧ At p k s)
      (record step) (fun _ => At p k) E :=
  triple_changeControl fun _ h _ =>
    h.2.change h.2.chained (fun _ _ => rfl) rfl (h.1 _ rfl) hstep

theorem triple_record {step : Step} {E : Exit → Thread → Prop}
    (hright : ∀ m : Moment, m.step = step → m.Right)
    (hstep : ∀ f, step ≠ .release f := by simp) :
    Triple p.guard (At p k) (record step) (fun _ => At p k) E :=
  (triple_recordRight hstep).weaken_pre fun _ h => ⟨fun m hm _ => hright m hm, h⟩

/-! ## Frames that are made and left -/

def Context.push (k : Context) (f : ℕ) (frame : Frame) (stack : List (Option Value × Symbol)) :
    Context where
  frame := Function.update k.frame f frame
  chain := f :: k.chain
  tags := k.tags
  stack := stack

@[simp] theorem Context.push_frame_self (f : ℕ) (frame : Frame)
    (stack : List (Option Value × Symbol)) : (k.push f frame stack).frame f = frame := by
  unfold Context.push
  exact Function.update_self _ _ _

theorem Context.push_frame_of_ne {f g : ℕ} (h : g ≠ f) (frame : Frame)
    (stack : List (Option Value × Symbol)) : (k.push f frame stack).frame g = k.frame g := by
  unfold Context.push
  exact Function.update_of_ne h _ _

theorem Context.Ok.push {f : ℕ} {frame : Frame} {stack : List (Option Value × Symbol)}
    (h : k.Ok) (hf : f ∉ k.chain) (hstack : k.stack <:+ stack)
    (hdepth : frame.lastSpecialBinding ≤ stack.length) (htags : frame.lastTag = k.tags) :
    (k.push f frame stack).Ok := by
  have hne : ∀ g ∈ k.chain, g ≠ f := fun g hg heq => hf (heq ▸ hg)
  have htagsOf : ∀ chain tags, (∀ g ∈ chain, g ∈ k.chain) → TagsOf k.frame chain tags →
      TagsOf (Function.update k.frame f frame) chain tags := by
    intro chain tags hchain h tag htag
    obtain ⟨hmem, htype, hactivation⟩ := h tag htag
    rw [Function.update_of_ne (hne _ (hchain _ hmem))]
    exact ⟨hmem, htype, hactivation⟩
  refine ⟨fun g hg => ?_, fun tag htag => ?_, fun before g after heq => ?_⟩
  · change (Function.update k.frame f frame g).lastSpecialBinding ≤ stack.length
    rcases List.mem_cons.1 hg with rfl | hg
    · rw [Function.update_self]
      exact hdepth
    · rw [Function.update_of_ne (hne g hg)]
      exact (h.depth g hg).trans hstack.length_le
  · obtain ⟨hmem, hrest⟩ := htagsOf k.chain k.tags (fun _ => id) h.tagsOf tag htag
    exact ⟨List.mem_cons_of_mem f hmem, hrest⟩
  · change TagsOf (Function.update k.frame f frame) after
      (Function.update k.frame f frame g).lastTag
    cases before with
    | nil =>
      obtain ⟨rfl, rfl⟩ := List.cons.inj heq
      rw [Function.update_self, htags]
      exact htagsOf k.chain k.tags (fun _ => id) h.tagsOf
    | cons g' before =>
      obtain ⟨-, heq⟩ := List.cons.inj heq
      have hafter : ∀ x ∈ g :: after, x ∈ k.chain := by
        intro x hx
        rw [heq]
        exact List.mem_append_right before hx
      rw [Function.update_of_ne (hne g (hafter g List.mem_cons_self))]
      exact htagsOf after _ (fun x hx => hafter x (List.mem_cons_of_mem g hx))
        (h.savedTagsOf before g after heq)

theorem Chained.head?_eq {c : Control} {chain : List ℕ} (h : Chained c chain) :
    c.lastControlFrame = chain.head? := by
  cases chain with
  | nil => exact h.isChain
  | cons f fs => exact h.isChain.1

/-- The context, with a frame that is not in use and the bindings as they are. -/
def Unused (p : Policy) (k : Context) (f : ℕ) (stack : List (Option Value × Symbol))
    (s : Thread) : Prop := (At p k s ∧ Fresh s.control k.chain f) ∧ s.bindingStack = stack

variable {stack : List (Option Value × Symbol)}

theorem triple_newFrame {E : Exit → Thread → Prop} :
    Triple p.guard (fun s => At p k s ∧ s.bindingStack = stack) newFrame
      (fun f => Unused p k f stack) E := by
  unfold newFrame
  refine triple_bind (triple_get (Q := fun s s' =>
    (At p k s' ∧ s'.bindingStack = stack) ∧ s' = s) fun s h _ => ⟨h, rfl⟩) ?_
  intro s₀
  refine triple_bind (triple_changeControl (Q := fun _ => Unused p k s₀.control.size stack) ?_)
    fun _ => triple_pure fun _ h _ => h
  rintro s ⟨⟨h, hstack⟩, rfl⟩ -
  have hnotMem : ∀ f ∈ k.chain ++ s.control.pool, f ≠ s.control.size := fun f hf =>
    (h.chained.lt f hf).ne
  have hchained := (ChainedFrom.setFrame (c := s.control) h.chained
    (fun hf => hnotMem _ (List.mem_append_left _ hf) rfl) (Frame.clear.init s))
  have hchained' : Chained { s.control.setFrame s.control.size (Frame.clear.init s) with
      size := s.control.size + 1 } k.chain :=
    hchained.congr (fun _ _ => ⟨rfl, rfl⟩) (List.Sublist.refl _) (Nat.le_succ _)
  refine ⟨⟨h.change hchained' (fun f hf => ?_) rfl fun _ => trivial, ?_, ?_,
    Nat.lt_succ_self _⟩, hstack⟩
  · have hne := hnotMem f (List.mem_append_left _ hf)
    simp [Control.setFrame, hne]
  · exact fun hf => hnotMem _ (List.mem_append_left _ hf) rfl
  · exact fun hf => hnotMem _ (List.mem_append_right _ hf) rfl

theorem triple_popFrame {E : Exit → Thread → Prop} {s₀ : Thread} {f : ℕ} {pool : List ℕ}
    (hpool : s₀.control.pool = f :: pool) :
    Triple p.guard (fun s => (At p k s ∧ s.bindingStack = stack) ∧ s = s₀)
      (changeControl (fun c => { c with pool := pool }) .change)
      (fun _ s => Unused p k f stack s ∧
        s.control.lastControlFrame = s₀.control.lastControlFrame) E := by
  refine triple_changeControl ?_
  rintro s ⟨⟨h, hstack⟩, rfl⟩ -
  have hmem : f ∈ s.control.pool := by
    rw [hpool]
    exact List.mem_cons_self
  have hnodup := h.chained.nodup
  rw [hpool] at hnodup
  have hf := List.nodup_middle.1 hnodup
  obtain ⟨hnotMem, -⟩ := List.nodup_cons.1 hf
  have hchained : Chained { s.control with pool := pool } k.chain :=
    h.chained.congr (fun _ _ => ⟨rfl, rfl⟩) (hpool ▸ List.sublist_cons_self f pool) le_rfl
  refine ⟨⟨⟨h.change hchained (fun _ _ => rfl) rfl fun _ => trivial, ?_, ?_, ?_⟩, hstack⟩, rfl⟩
  · exact fun hf => hnotMem (List.mem_append_left _ hf)
  · exact fun hf => hnotMem (List.mem_append_right _ hf)
  · exact h.chained.lt f (List.mem_append_right _ hmem)

theorem triple_getFrame :
    Triple p.guard (fun s => At p k s ∧ s.bindingStack = stack) getFrame
      (fun f => Unused p k f stack) (Left p k) := by
  unfold getFrame
  refine triple_bind (triple_get (Q := fun s s' =>
    (At p k s' ∧ s'.bindingStack = stack) ∧ s' = s) fun s h _ => ⟨h, rfl⟩) ?_
  intro s₀
  split
  · rename_i f pool hpool
    refine triple_bind (triple_popFrame hpool) fun _ => ?_
    refine triple_ite (fun heq => triple_exit ?_) fun _ => triple_pure fun s h _ => h.1
    rintro s ⟨⟨⟨h, hfresh⟩, -⟩, hlast⟩ -
    -- a frame that is last is on the chain
    exact hfresh.notMem_chain (h.chained.mem_of_reaches (.last (hlast.trans heq.symm)))
  · exact triple_newFrame.weaken_pre fun _ h => h.1

structure Pushed (p : Policy) (k : Context) (f : ℕ) (frame : Frame)
    (stack : List (Option Value × Symbol)) : Prop where
  ok : k.Ok
  notMem : f ∉ k.chain
  suffix : k.stack <:+ stack
  exact : p.NoBind → stack = k.stack
  depth : frame.lastSpecialBinding = stack.length
  tags : frame.lastTag = k.tags

/-- The context in which a frame has just been made last. -/
def Entered (p : Policy) (k : Context) (f : ℕ) (frame : Frame)
    (stack : List (Option Value × Symbol)) (s : Thread) : Prop :=
  Pushed p k f frame stack ∧ At p (k.push f frame stack) s

theorem At.setFrame {s : Thread} {f : ℕ} {frame : Frame} (h : At p k s)
    (hf : Fresh s.control k.chain f) :
    At p k { s with
      control := s.control.setFrame f frame
      trace := ⟨.change, s.control.setFrame f frame, s.bindingStack⟩ :: s.trace } ∧
      Fresh (s.control.setFrame f frame) k.chain f := by
  refine ⟨h.change (ChainedFrom.setFrame h.chained hf.notMem_chain frame) (fun g hg => ?_) rfl
    fun _ => trivial, hf.notMem_chain, hf.notMem_pool, hf.lt⟩
  have hne : g ≠ f := fun heq => hf.notMem_chain (heq ▸ hg)
  simp [Control.setFrame, hne]

theorem triple_pushFrame {f : ℕ} {upd : Frame → Frame} {F : Frame → Prop}
    (hupd : ∀ frame, (upd frame).lastSpecialBinding = frame.lastSpecialBinding ∧
      (upd frame).lastControlFrame = frame.lastControlFrame ∧
      (upd frame).lastTag = frame.lastTag)
    (hF : ∀ frame a next, F { upd frame with activation := a, next := next }.core) :
    Triple p.guard (Unused p k f stack) (pushFrame f upd)
      (fun a s => Entered p k f (s.control.frames f).core stack s ∧
        (s.control.frames f).core.activation = a ∧ F (s.control.frames f).core) (Left p k) := by
  unfold pushFrame
  refine triple_bind (silent_newActivation.triple ?_) fun a => ?_
  · rintro s s' hsame ⟨⟨h, hf⟩, hstack⟩
    unfold Unused
    rw [hsame.control, hsame.bindingStack]
    exact ⟨⟨h.same hsame, hf⟩, hstack⟩
  refine triple_bind (triple_get (Q := fun s s' => Unused p k f stack s' ∧ s' = s)
    fun s h _ => ⟨h, rfl⟩) fun s₀ => ?_
  refine triple_bind (triple_changeControl (Q := fun _ s =>
    Unused p k f stack s ∧
      s.control.lastControlFrame = s₀.control.lastControlFrame ∧
      (s.control.frames f).lastControlFrame = s.control.lastControlFrame ∧
      (s.control.frames f).lastSpecialBinding = stack.length ∧
      (s.control.frames f).lastTag = k.tags ∧ (s.control.frames f).activation = a ∧
      ∀ next, F { s.control.frames f with next := next }.core) ?_) fun _ => ?_
  · rintro s ⟨⟨⟨h, hf⟩, hstack⟩, rfl⟩ -
    obtain ⟨hdepth, hlast, htags⟩ := hupd ((s.control.frames f).init s)
    refine ⟨⟨h.setFrame hf, hstack⟩, rfl, ?_⟩
    simp only [Control.setFrame, Function.update_self]
    refine ⟨hlast, ?_, ?_, trivial, fun next => hF _ _ _⟩
    · rw [hdepth, ← hstack]
      rfl
    · rw [htags]
      exact h.tags
  refine triple_ite (fun heq => triple_exit ?_) fun _ => ?_
  · rintro s ⟨⟨⟨h, hf⟩, -⟩, hlast, -⟩ -
    exact hf.notMem_chain (h.chained.mem_of_reaches (.last (hlast.trans heq)))
  refine triple_bind (triple_changeControl (Q := fun _ s =>
    Unused p k f stack s ∧
      (s.control.frames f).next = s.control.lastControlFrame ∧
      (s.control.frames f).lastControlFrame = s.control.lastControlFrame ∧
      (s.control.frames f).lastSpecialBinding = stack.length ∧
      (s.control.frames f).lastTag = k.tags ∧ (s.control.frames f).activation = a ∧
      F (s.control.frames f).core) ?_) fun _ => ?_
  · rintro s ⟨⟨⟨h, hf⟩, hstack⟩, -, hlast, hdepth, htags, ha, hF⟩ -
    refine ⟨⟨h.setFrame hf, hstack⟩, ?_⟩
    simp only [Control.setFrame, Function.update_self]
    exact ⟨trivial, hlast, hdepth, htags, ha, hF _⟩
  refine triple_bind (triple_changeControl (Q := fun _ s =>
    Entered p k f (s.control.frames f).core stack s ∧
      (s.control.frames f).core.activation = a ∧ F (s.control.frames f).core) ?_)
    fun _ => triple_pure fun s h _ => h
  rintro s ⟨⟨⟨h, hf⟩, rfl⟩, hnext, hlast, hdepth, htags, ha, hF⟩ -
  have hok : (k.push f (s.control.frames f).core s.bindingStack).Ok :=
    h.ok.push hf.notMem_chain h.stack hdepth.le htags
  have hchained := h.chained.push hf hlast hnext
  refine ⟨⟨⟨h.ok, hf.notMem_chain, h.stack, h.exact, hdepth, htags⟩,
    ⟨hok, hchained, ?_, h.tags, List.suffix_refl _, fun _ => rfl, ?_⟩⟩, ha, hF⟩
  · intro g hg
    change (s.control.frames g).core = (Function.update k.frame f _ g).core
    rcases List.mem_cons.1 hg with rfl | hg
    · rw [Function.update_self]
      rfl
    · have hne : g ≠ f := fun heq => hf.notMem_chain (heq ▸ hg)
      rw [Function.update_of_ne hne]
      exact h.frames g hg
  · exact h.history.cons (fun _ => hchained) fun _ => trivial

theorem triple_addBlock (name : Symbol) :
    Triple p.guard (fun s => At p k s ∧ s.bindingStack = stack) (addBlock name)
      (fun r s => Entered p k r.1 (s.control.frames r.1).core stack s ∧
        (s.control.frames r.1).core.activation = r.2 ∧
        (s.control.frames r.1).core.type = .block) (Left p k) := by
  unfold addBlock
  refine triple_bind triple_getFrame fun f => ?_
  refine triple_bind (triple_pushFrame (F := fun frame => frame.type = .block)
    (fun _ => ⟨rfl, rfl, rfl⟩) fun _ _ _ => rfl) fun a => ?_
  exact triple_pure fun s h _ => h

theorem triple_addCatchFrame (tag : Value) :
    Triple p.guard (fun s => At p k s ∧ s.bindingStack = stack) (addCatchFrame tag)
      (fun f s => Entered p k f (s.control.frames f).core stack s ∧
        (s.control.frames f).core.type = .catch) (Left p k) := by
  unfold addCatchFrame
  refine triple_bind triple_getFrame fun f => ?_
  refine triple_bind (triple_pushFrame (F := fun frame => frame.type = .catch)
    (fun _ => ⟨rfl, rfl, rfl⟩) fun _ _ _ => rfl) fun a => ?_
  exact triple_pure fun s h _ => ⟨h.1, h.2.2⟩

theorem triple_addUnwindProtect (cleanupForms : List Form) (env : ℕ) :
    Triple p.guard (fun s => At p k s ∧ s.bindingStack = stack)
      (addUnwindProtect cleanupForms env)
      (fun f s => Entered p k f (s.control.frames f).core stack s ∧
        (s.control.frames f).core.type = .unwindProtect) (Left p k) := by
  unfold addUnwindProtect
  refine triple_bind triple_getFrame fun f => ?_
  refine triple_bind (triple_pushFrame (F := fun frame => frame.type = .unwindProtect)
    (fun _ => ⟨rfl, rfl, rfl⟩) fun _ _ _ => rfl) fun a => ?_
  exact triple_pure fun s h _ => ⟨h.1, h.2.2⟩

theorem triple_getTagbody :
    Triple p.guard (fun s => At p k s ∧ s.bindingStack = stack) getTagbody
      (fun r s => Entered p k r.1 (s.control.frames r.1).core stack s ∧
        (s.control.frames r.1).core.activation = r.2 ∧
        (s.control.frames r.1).core.type = .tagbody) (Left p k) := by
  have hpush : ∀ f, Triple p.guard (Unused p k f stack)
      (do
        let activation ← pushFrame f fun frame => { frame with type := .tagbody }
        return (f, activation))
      (fun r s => Entered p k r.1 (s.control.frames r.1).core stack s ∧
        (s.control.frames r.1).core.activation = r.2 ∧
        (s.control.frames r.1).core.type = .tagbody) (Left p k) := fun f =>
    triple_bind (triple_pushFrame (F := fun frame => frame.type = .tagbody)
      (fun _ => ⟨rfl, rfl, rfl⟩) fun _ _ _ => rfl) fun _ => triple_pure fun _ h _ => h
  unfold getTagbody
  refine triple_bind (triple_get (Q := fun s s' =>
    (At p k s' ∧ s'.bindingStack = stack) ∧ s' = s) fun s h _ => ⟨h, rfl⟩) fun s₀ => ?_
  split
  · rename_i f pool hpool
    exact triple_bind (triple_popFrame hpool) fun _ => (hpush f).weaken_pre fun _ h => h.1
  · exact (triple_bind triple_newFrame hpush).weaken_pre fun _ h => h.1

/-- The frame `f` is about to be left. -/
structure Leaving (p : Policy) (k : Context) (f : ℕ) (s : Thread) : Prop where
  ok : k.Ok
  live : ∃ chain, Chained s.control chain
  chained : ChainedFrom s.control (some f) (f :: k.chain)
  frames : k.Frames s.control k.chain
  saved : (s.control.frames f).lastTag = k.tags
  stack : k.stack <:+ s.bindingStack
  exact : p.NoBind → s.bindingStack = k.stack
  history : History p s.trace

theorem triple_restoreLastControlFrame {f : ℕ} {E : Exit → Thread → Prop} :
    Triple p.guard (fun s => Leaving p k f s ∧ s.lastTag = k.tags) (restoreLastControlFrame f)
      (fun _ s => At p k s ∧ Fresh s.control k.chain f) E := by
  refine triple_changeControl ?_
  rintro s ⟨h, htags⟩ -
  obtain ⟨hchained, hfresh⟩ := h.chained.leave
  exact ⟨⟨h.ok, hchained, h.frames, htags, h.stack, h.exact,
    h.history.cons (fun _ => hchained) fun _ => trivial⟩, hfresh⟩

theorem triple_releaseFrame {f : ℕ} {E : Exit → Thread → Prop} :
    Triple p.guard (fun s => At p k s ∧ Fresh s.control k.chain f) (releaseFrame f)
      (fun _ => At p k) E := by
  refine triple_changeControl ?_
  rintro s ⟨h, hf⟩ -
  refine h.change ?_ (fun g hg => ?_) rfl fun _ => trivial
  · have hlast : (s.control.releaseFrame f).lastControlFrame = s.control.lastControlFrame := by
      unfold Control.releaseFrame
      split <;> rfl
    unfold Chained
    rw [hlast]
    exact ChainedFrom.releaseFrame h.chained hf
  · have hne : g ≠ f := fun heq => hf.notMem_chain (heq ▸ hg)
    unfold Control.releaseFrame
    split
    · simp [Control.setFrame, hne]
    · rfl

theorem triple_leave {f : ℕ} {E : Exit → Thread → Prop} :
    Triple p.guard (fun s => Leaving p k f s ∧ s.lastTag = k.tags) (leaveBlock f)
      (fun _ => At p k) E :=
  triple_bind triple_restoreLastControlFrame fun _ => triple_releaseFrame

theorem Pushed.leaving {f : ℕ} {frame : Frame} {s : Thread} (h : Pushed p k f frame stack)
    (hat : At p (k.push f frame stack) s) : Leaving p k f s ∧ s.lastTag = k.tags := by
  have hne : ∀ g ∈ k.chain, g ≠ f := fun g hg heq => h.notMem (heq ▸ hg)
  refine ⟨⟨h.ok, ⟨_, hat.chained⟩, ?_, fun g hg => ?_, ?_, h.suffix.trans hat.stack,
    fun hp => ?_, hat.history⟩, hat.tags⟩
  · have hlast : s.control.lastControlFrame = some f := hat.chained.isChain.1
    exact hlast ▸ hat.chained
  · have hg' := hat.frames g (List.mem_cons_of_mem f hg)
    rwa [Context.push_frame_of_ne (hne g hg)] at hg'
  · have hf := congrArg Frame.lastTag (hat.frames f List.mem_cons_self)
    rw [Context.push_frame_self] at hf
    exact hf.trans h.tags
  · exact (hat.exact hp).trans (h.exact hp)

end Xcl.Interpreter
