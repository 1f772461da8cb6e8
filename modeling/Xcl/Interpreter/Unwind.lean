import Xcl.Interpreter.Context

/-!
# Unwinding

* `Walking`: the part of the chain that an unwinding has not passed;
* **`triple_rtUnwindTo`**: the context of the target is in force again.
-/

namespace Xcl.Interpreter

open Xcl.Exits Comp

variable {p : Policy} {k : Context} {ev : Form → ℕ → Interp Value}

/-- The chain from the frame `rest` begins with, while an unwinding passes it. -/
structure Walking (p : Policy) (k : Context) (rest : List ℕ) (s : Thread) : Prop where
  ok : k.Ok
  chained : ChainedFrom s.control rest.head? rest
  frames : k.Frames s.control rest
  stack : k.stack <:+ s.bindingStack
  exact : p.NoBind → s.bindingStack = k.stack
  history : History p s.trace

theorem At.walking {s : Thread} (h : At p k s) : Walking p k k.chain s where
  ok := h.ok
  chained := by
    have hlast := h.chained.head?_eq
    exact hlast ▸ h.chained
  frames := h.frames
  stack := h.stack
  exact := h.exact
  history := h.history

theorem Walking.drop {s : Thread} {before after : List ℕ} {f : ℕ}
    (h : Walking p k (before ++ f :: after) s) : Walking p k (f :: after) s where
  ok := h.ok
  chained := h.chained.drop
  frames g hg := h.frames g (List.mem_append_right before hg)
  stack := h.stack
  exact := h.exact
  history := h.history

/-! ## The history of an unwinding -/

/-- The triple that says nothing but that the history grows. -/
def Grows {α : Type} (p : Policy) (m : Interp α) : Prop :=
  Triple p.guard (fun _ => False) m (fun _ _ => False) fun _ _ => False

theorem grows_changeControl (f : Control → Control) (step : Step) :
    Grows p (changeControl f step) := triple_changeControl fun _ h _ => h.elim

theorem Keeps.grows {α : Type} {m : Interp α} (hm : Keeps p m) : Grows p m :=
  (hm ⟨fun _ => .clear, [], [], []⟩).of_false

theorem Sound.grows (hev : Sound p ev) (form : Form) (env : ℕ) : Grows p (ev form env) :=
  (hev form env).grows

theorem Silent.grows {α : Type} {m : Interp α} (hm : Silent m) : Grows p m :=
  hm.triple fun _ _ _ h => h

theorem Grows.bind {α β : Type} {m : Interp α} {g : α → Interp β} (hm : Grows p m)
    (hg : ∀ a, Grows p (g a)) : Grows p (m >>= g) := triple_bind hm hg

theorem grows_pure {α : Type} (a : α) : Grows p (pure a : Interp α) := (silent_pure a).grows

theorem grows_get : Grows p (get : Interp Thread) := silent_get.grows

theorem grows_exit {α : Type} (e : Exit) : Grows p (exit e : Interp α) :=
  triple_exit fun _ h _ => h

theorem Grows.catchExit {α : Type} {m : Interp α} {handler : Exit → Option (Interp α)}
    (hm : Grows p m) (hhandler : ∀ e h, handler e = some h → Grows p h) :
    Grows p (m.catchExit handler) := triple_catchExit hm hhandler fun _ _ _ h => h

theorem grows_runCleanupForms (hev : ∀ form env, Grows p (ev form env)) (released : Bool)
    (f n : ℕ) : Grows p (runCleanupForms ev released f n) := by
  induction n with
  | zero => exact grows_exit _
  | succ n ih =>
    refine grows_get.bind fun s₀ => ?_
    split
    · exact grows_pure ()
    · exact (grows_changeControl _ _).bind fun _ => (grows_changeControl _ _).bind fun _ =>
        (hev _ _).bind fun _ => ih

theorem grows_passFrame (hev : ∀ form env, Grows p (ev form env)) (n f : ℕ) (released : Bool) :
    Grows p (passFrame ev n f released) := by
  refine grows_get.bind fun s₀ => ?_
  refine triple_ite (fun _ => ?_) fun _ => triple_ite (fun _ => ?_) fun _ => grows_pure _
  · exact (grows_runCleanupForms hev _ _ _).bind fun _ => grows_pure _
  · exact (grows_changeControl _ _).bind fun _ => grows_pure _

theorem grows_unwindLoop (hev : ∀ form env, Grows p (ev form env)) (target n : ℕ)
    (start : Option ℕ) (released : Bool) : Grows p (unwindLoop ev target n start released) := by
  induction n generalizing start released with
  | zero => exact grows_exit _
  | succ n ih =>
    cases start with
    | none => exact grows_pure ()
    | some f =>
      refine triple_ite (fun _ => grows_pure ()) fun _ => ?_
      exact grows_get.bind fun s₀ => (grows_passFrame hev _ _ _).bind fun _ => ih _ _

/-! ## Cleanup forms -/

theorem core_popCleanupForm (c : Control) (f g : ℕ) (forms : List Form) :
    ((c.setFrame f ((c.frames f).setCleanupForms forms)).frames g).core =
      (c.frames g).core := by
  by_cases hg : g = f
  · subst hg
    simp [Control.setFrame, Frame.setCleanupForms, Frame.core]
  · simp [Control.setFrame, hg]

theorem ChainedFrom.popCleanupForm {c : Control} {start : Option ℕ} {chain : List ℕ}
    (h : ChainedFrom c start chain) (f : ℕ) (forms : List Form) :
    ChainedFrom (c.setFrame f ((c.frames f).setCleanupForms forms)) start chain := by
  refine h.congr (fun g _ => ?_) (List.Sublist.refl _) le_rfl
  have hcore := core_popCleanupForm c f g forms
  constructor
  · exact Frame.eq_of_core hcore Frame.lastControlFrame fun _ => rfl
  · exact Frame.eq_of_core hcore Frame.next fun _ => rfl

theorem triple_popCleanupForm {f : ℕ} {forms : List Form} {E : Exit → Thread → Prop} :
    Triple p.guard (At p k) (popCleanupForm f forms) (fun _ => At p k) E :=
  triple_changeControl fun _ h _ =>
    h.change (ChainedFrom.popCleanupForm h.chained f forms)
      (fun g _ => core_popCleanupForm _ f g forms) rfl fun _ => trivial

theorem triple_runCleanupForms (hev : Sound p ev) (f n : ℕ) :
    Triple p.guard (At p k) (runCleanupForms ev false f n) (fun _ => At p k) (Left p k) := by
  induction n with
  | zero => exact triple_exit fun _ h _ => h.history
  | succ n ih =>
    refine triple_bind (triple_get (Q := fun _ => At p k) fun _ h _ => h) fun s₀ => ?_
    split
    · exact triple_pure fun _ h _ => h
    · refine triple_bind triple_popCleanupForm fun _ => ?_
      refine triple_bind (triple_record fun m hm => by rw [Moment.Right, hm]; trivial) fun _ => ?_
      exact triple_bind (hev _ _ _) fun _ => ih

theorem triple_runCleanupForms_released (hclean : p.Clean) (hev : Sound p ev) {rest : List ℕ} (f n
    : ℕ) :
    Triple p.guard (fun s => ¬ p.Whole ∧ Walking p k rest s) (runCleanupForms ev true f n)
      (fun _ s => ¬ p.Whole ∧ Walking p k rest s) (Left p k) := by
  cases n with
  | zero => exact triple_exit fun _ h _ => h.2.history
  | succ n =>
    refine triple_bind (triple_get (Q := fun _ s => ¬ p.Whole ∧ Walking p k rest s)
      fun _ h _ => h) fun s₀ => ?_
    split
    · exact triple_pure fun _ h _ => h
    · rename_i form forms _
      refine triple_bind (triple_changeControl (Q := fun _ _ => ¬ p.Whole) fun _ h _ => h.1)
        fun _ => ?_
      refine triple_bind (triple_changeControl (Q := fun _ s => ¬ p.guard.ok s) ?_) fun _ => ?_
      · intro s hp hmeets
        exact absurd rfl (hclean.resolve_right hp _ hmeets)
      · have hgrows : Grows p (do
            let _ ← ev form (s₀.control.frames f).env
            runCleanupForms ev true f n) :=
          triple_bind (hev.grows _ _) fun _ => grows_runCleanupForms hev.grows _ _ _
        exact Triple.of_not_ok hgrows.grows fun _ h => h

/-! ## The loop -/

/-- **A frame that an unwinding puts into the pool is live**, as long as the chain is whole. -/
theorem Chained.not_recycled_releaseFrame {c : Control} {before after : List ℕ} {f : ℕ}
    (h : Chained c (before ++ f :: after)) (hpool : c.pool.length < framePoolSize - 1) :
    ¬ (c.releaseFrame f).Recycled := by
  rintro ⟨-, hnotMem⟩
  have heq : c.releaseFrame f = { c.setFrame f .clear with pool := f :: c.pool } := if_pos hpool
  rw [heq] at hnotMem
  refine hnotMem f List.mem_cons_self ?_
  -- the frames before `f` lead to it as they did
  have hnodup := (List.nodup_append.1 h.nodup).1
  have hnext : ∀ {start : Option ℕ} {before : List ℕ},
      IsChain c.frames start (before ++ f :: after) → (before ++ f :: after).Nodup →
        (∀ g, start = some g →
          Control.Reaches { c.setFrame f .clear with pool := f :: c.pool } g) →
        Control.Reaches { c.setFrame f .clear with pool := f :: c.pool } f := by
    intro start before
    induction before generalizing start with
    | nil =>
      rintro ⟨rfl, -⟩ - hstart
      exact hstart f rfl
    | cons g before ih =>
      rintro ⟨rfl, -, hrest⟩ hnodup hstart
      obtain ⟨hg, hnodup⟩ := List.nodup_cons.1 hnodup
      have hne : g ≠ f := by
        rintro rfl
        exact hg (List.mem_append_right _ List.mem_cons_self)
      refine ih hrest hnodup fun g' hg' => .next (hstart g rfl) ?_
      simpa [Control.setFrame, hne] using hg'
  exact hnext h.isChain hnodup fun _ hg => .last hg

theorem Walking.release {s : Thread} {f : ℕ} {rest : List ℕ} (hp : ¬ p.Whole)
    (h : Walking p k (f :: rest) s) (hrest : (s.control.frames f).next = rest.head?) :
    Walking p k rest { s with
      control := s.control.releaseFrame f
      trace := ⟨.release f, s.control.releaseFrame f, s.bindingStack⟩ :: s.trace } := by
  have hnodup := h.chained.nodup
  obtain ⟨hnotMem, -⟩ := List.nodup_cons.1 hnodup
  have hfresh : Fresh s.control rest f :=
    ⟨fun hmem => hnotMem (List.mem_append_left _ hmem),
      fun hmem => hnotMem (List.mem_append_right _ hmem), h.chained.lt f List.mem_cons_self⟩
  refine ⟨h.ok, ?_, fun g hg => ?_, h.stack, h.exact, ?_⟩
  · have htail := h.chained.tail
    rw [hrest] at htail
    exact htail.releaseFrame hfresh
  · have hne : g ≠ f := fun heq => hfresh.notMem_chain (heq ▸ hg)
    rw [← h.frames g (List.mem_cons_of_mem f hg)]
    simp only [Control.releaseFrame]
    split
    · simp [Control.setFrame, hne]
    · rfl
  · exact ⟨fun hp' => absurd hp' hp, fun hlex m hm => by
      rcases List.mem_cons.1 hm with rfl | hm
      · trivial
      · exact h.history.right hlex m hm⟩

theorem Walking.next {s : Thread} {f : ℕ} {rest : List ℕ} (h : Walking p k (f :: rest) s) :
    (s.control.frames f).next = rest.head? := by
  have hrest := h.chained.isChain.2.2
  cases rest with
  | nil => exact hrest
  | cons g rest => exact hrest.1

/-- Before the first frame is put into the pool the whole chain is as it was. -/
def Passing (p : Policy) (k : Context) (rest : List ℕ) (released : Bool) (s : Thread) : Prop :=
  Walking p k rest s ∧ (released = false → At p k s) ∧ (released = true → ¬ p.Whole)

theorem triple_passFrame (hclean : p.Clean) (hev : Sound p ev) (n : ℕ) {f : ℕ} {rest before : List
    ℕ}
    (hchain : k.chain = before ++ f :: rest) (released : Bool) :
    Triple p.guard (Passing p k (f :: rest) released) (passFrame ev n f released)
      (Passing p k rest) (Left p k) := by
  have htail : ∀ {s}, Walking p k (f :: rest) s → Walking p k rest s := fun {s} h =>
    ⟨h.ok, h.next ▸ h.chained.tail, fun g hg => h.frames g (List.mem_cons_of_mem f hg), h.stack,
      h.exact, h.history⟩
  have hat : ∀ {s}, At p k s → Walking p k (f :: rest) s := by
    intro s h
    have hwalking := h.walking
    rw [hchain] at hwalking
    exact hwalking.drop
  refine triple_bind (triple_get (Q := fun s s' =>
    Passing p k (f :: rest) released s' ∧ s' = s) fun s h _ => ⟨h, rfl⟩) fun s₀ => ?_
  refine triple_ite (fun _ => ?_) fun _ => triple_ite (fun hpool => ?_) fun _ => ?_
  · cases released with
    | false =>
      refine triple_bind ((triple_runCleanupForms hev f n).weaken_pre
        fun _ h => h.1.2.1 rfl) fun _ => ?_
      exact triple_pure fun _ h _ => ⟨htail (hat h), fun _ => h, nofun⟩
    | true =>
      refine triple_bind ((triple_runCleanupForms_released hclean hev f n).weaken_pre
        fun _ h => ⟨h.1.2.2 rfl, h.1.1⟩) fun _ => ?_
      exact triple_pure fun _ h _ => ⟨htail h.2, nofun, fun _ => h.1⟩
  · refine triple_bind (triple_changeControl (Q := fun _ s =>
      Walking p k rest s ∧ ¬ p.Whole) ?_) fun _ => ?_
    · rintro s ⟨⟨h, hfalse, htrue⟩, rfl⟩ hmeets
      have hp : ¬ p.Whole := by
        intro hp
        cases released with
        | true => exact htrue rfl hp
        | false =>
          have hchained := (hfalse rfl).chained
          rw [hchain] at hchained
          exact hchained.not_recycled_releaseFrame hpool (hp _ hmeets f rfl)
      exact ⟨h.release hp h.next, hp⟩
    · exact triple_pure fun _ h _ => ⟨h.1, nofun, fun _ => h.2⟩
  · exact triple_pure fun _ h _ => ⟨htail h.1.1, h.1.2⟩

theorem triple_unwindLoop (hclean : p.Clean) (hev : Sound p ev) {f : ℕ} {after : List ℕ} (n : ℕ) :
    ∀ (done before : List ℕ) (released : Bool), k.chain = done ++ (before ++ f :: after) →
      Triple p.guard (Passing p k (before ++ f :: after) released)
        (unwindLoop ev f n (before ++ f :: after).head? released)
        (fun _ => Walking p k (f :: after)) (Left p k) := by
  induction n with
  | zero =>
    intro done before released hchain
    exact triple_exit fun _ h _ => h.1.history
  | succ n ih =>
    intro done before released hchain
    cases before with
    | nil => exact triple_ite (fun _ => triple_pure fun _ h _ => h.1) fun h => absurd rfl h
    | cons g before =>
      change Triple p.guard _ (unwindLoop ev f (n + 1) (some g) released) _ _
      refine triple_ite (fun heq => triple_pure fun s h _ => ?_) fun _ => ?_
      · have hwalking : Walking p k ((g :: before) ++ f :: after) s := h.1
        exact hwalking.drop
      refine triple_bind (triple_get (Q := fun s s' =>
        (s.control.frames g).next = (before ++ f :: after).head? ∧
          Passing p k (g :: (before ++ f :: after)) released s')
        fun s h _ => ⟨h.1.next, h⟩) fun s₀ => ?_
      refine triple_bind ((triple_passFrame hclean hev n hchain released).frame _ |>.conseq
        (fun _ => id) (fun _ _ => id) fun _ _ h => h.2) fun released => ?_
      refine Triple.of_imp (fun s h => h.1) (grows_unwindLoop hev.grows f n _ _).grows fun hnext =>
        ?_
      rw [hnext]
      have hchain' : k.chain = (done ++ [g]) ++ (before ++ f :: after) := by
        rw [hchain]
        simp
      exact (ih (done ++ [g]) before released hchain').weaken_pre fun _ h => h.2

/-! ## The context of the target -/

theorem unbind_eq (n : ℕ) (s : Thread) :
    (unbind n s).control = s.control ∧ (unbind n s).lastTag = s.lastTag ∧
      (unbind n s).trace = s.trace ∧ (unbind n s).bindingStack = s.bindingStack.drop n := by
  induction n generalizing s with
  | zero => exact ⟨rfl, rfl, rfl, rfl⟩
  | succ n ih =>
    unfold unbind
    split
    · rename_i h
      exact ⟨rfl, rfl, rfl, by rw [h, List.drop_nil]⟩
    · rename_i v name rest h
      obtain ⟨hcontrol, htag, htrace, hstack⟩ := ih
        { s with
          bindingStack := rest
          threadLocalValue := Function.update s.threadLocalValue name v }
      refine ⟨hcontrol, htag, htrace, ?_⟩
      rw [hstack, h, List.drop_succ_cons]

/-- The bindings that remain are those at the end of the stack. -/
theorem drop_of_suffix {α : Type} {l l' : List α} {n : ℕ} (h : l <:+ l') (hn : n ≤ l.length) :
    l'.drop (l'.length - n) = l.drop (l.length - n) := by
  obtain ⟨more, rfl⟩ := h
  have hlength : (more ++ l).length - n = more.length + (l.length - n) := by
    rw [List.length_append]
    omega
  rw [hlength, List.drop_append]
  simp

theorem triple_restoreFrameContext {f : ℕ} {before after : List ℕ}
    (hchain : k.chain = before ++ f :: after) {E : Exit → Thread → Prop} :
    Triple p.guard (Walking p k (f :: after)) (restoreFrameContext f)
      (fun _ => Arrived p k f after) E := by
  have hmem : f ∈ k.chain := by
    rw [hchain]
    exact List.mem_append_right _ List.mem_cons_self
  refine triple_bind (triple_get (Q := fun s s' => Walking p k (f :: after) s' ∧ s' = s)
    fun s h _ => ⟨h, rfl⟩) fun s₀ => ?_
  refine triple_bind (triple_modify (Q := fun _ s =>
    Walking p k (f :: after) { s with bindingStack := k.stack } ∧ s.control = s₀.control ∧
      s.bindingStack = k.stack.drop (k.stack.length - (k.frame f).lastSpecialBinding)) ?_ ?_)
    fun _ => ?_
  · intro s
    change s.trace <:+ (unbind _ s).trace
    rw [(unbind_eq _ s).2.2.1]
  · rintro s ⟨h, rfl⟩ -
    obtain ⟨hcontrol, -, htrace, hstack⟩ :=
      unbind_eq (s.bindingStack.length - (s.control.frames f).lastSpecialBinding) s
    have hdepth : (s.control.frames f).lastSpecialBinding = (k.frame f).lastSpecialBinding :=
      Frame.eq_of_core (h.frames f List.mem_cons_self) Frame.lastSpecialBinding fun _ => rfl
    refine ⟨⟨h.ok, ?_, ?_, List.suffix_refl _, fun _ => rfl, ?_⟩, hcontrol, ?_⟩
    · change ChainedFrom (unbind _ s).control _ _
      rw [hcontrol]
      exact h.chained
    · change k.Frames (unbind _ s).control _
      rw [hcontrol]
      exact h.frames
    · change History p (unbind _ s).trace
      rw [htrace]
      exact h.history
    · rw [hstack, hdepth]
      exact drop_of_suffix h.stack (h.ok.depth f hmem)
  -- the frame's type decides which frame is last
  have hcore : ∀ {s : Thread}, Walking p k (f :: after) s →
      (s.control.frames f).core = (k.frame f).core := fun h => h.frames f List.mem_cons_self
  refine triple_ite (fun htype => ?_) fun htype => ?_
  · refine triple_changeControl ?_
    rintro s ⟨h, hcontrol, hstack⟩ -
    have htype' : (k.frame f).type = .tagbody := by
      rw [← hcontrol] at htype
      exact (Frame.eq_of_core (hcore h) Frame.type fun _ => rfl).symm.trans htype
    have hchained : ChainedFrom (s.control.setLastControlFrame (some f)) (some f) (f :: after) :=
      h.chained.congr (fun _ _ => ⟨rfl, rfl⟩) (List.Sublist.refl _) le_rfl
    refine ⟨hchained, ?_, h.frames, fun hne => absurd htype' hne, hstack,
      h.history.cons (fun _ => hchained) fun _ => trivial⟩
    rw [if_pos htype']
    rfl
  · refine triple_bind (triple_changeControl (Q := fun _ s =>
      (ChainedFrom s.control (some f) (f :: after) ∧
        s.control.lastControlFrame = (k.frame f).lastControlFrame ∧
        k.Frames s.control (f :: after) ∧ History p s.trace) ∧ (k.frame f).type ≠ .tagbody ∧
      (s₀.control.frames f).lastTag = (k.frame f).lastTag ∧
      s.bindingStack = k.stack.drop (k.stack.length - (k.frame f).lastSpecialBinding)) ?_)
      fun _ => ?_
    · rintro s ⟨h, hcontrol, hstack⟩ -
      have htype' : (k.frame f).type ≠ .tagbody := by
        rw [← hcontrol] at htype
        exact fun h' => htype ((Frame.eq_of_core (hcore h) Frame.type fun _ => rfl).trans h')
      have htags : (s₀.control.frames f).lastTag = (k.frame f).lastTag := by
        rw [← hcontrol]
        exact Frame.eq_of_core (hcore h) Frame.lastTag fun _ => rfl
      refine ⟨⟨h.chained.congr (fun _ _ => ⟨rfl, rfl⟩) (List.Sublist.refl _) le_rfl, ?_,
        h.frames, h.history.cons (fun _ => h.chained.leave.1) fun _ => trivial⟩, htype', htags,
        hstack⟩
      exact Frame.eq_of_core (hcore h) Frame.lastControlFrame fun _ => rfl
    · refine triple_modify (fun s => List.suffix_refl s.trace) ?_
      rintro s ⟨⟨hchained, hlast, hframes, hhistory⟩, htype', htags, hstack⟩ -
      refine ⟨hchained, ?_, hframes, fun _ => htags, hstack, hhistory⟩
      rw [if_neg htype']
      exact hlast

/-- **An unwinding ends in the context of its target**, or where a cleanup form leaves to. -/
theorem triple_rtUnwindTo (hclean : p.Clean) (hev : Sound p ev) (n : ℕ) {f : ℕ}
    {before after : List ℕ} (hchain : k.chain = before ++ f :: after) :
    Triple p.guard (At p k) (rtUnwindTo ev n f) (fun _ => Arrived p k f after) (Left p k) := by
  refine triple_bind (triple_record fun m hm => by rw [Moment.Right, hm]; trivial) fun _ => ?_
  refine triple_bind (triple_get (Q := fun s s' =>
    s.control.lastControlFrame = k.chain.head? ∧ At p k s')
    fun s h _ => ⟨h.chained.head?_eq, h⟩) fun s₀ => ?_
  refine triple_bind (Q := fun _ => Walking p k (f :: after)) ?_ fun _ => ?_
  · refine Triple.of_imp (fun s h => h.1) (grows_unwindLoop hev.grows f n _ _).grows fun hlast => ?_
    rw [hlast, hchain]
    refine (triple_unwindLoop hclean hev n [] before false hchain).weaken_pre fun s h => ?_
    rw [← hchain]
    exact ⟨h.2.walking, fun _ => h.2, nofun⟩
  · refine triple_bind ((silent_setValues s₀.values).triple ?_) fun _ =>
      triple_restoreFrameContext hchain
    intro s s' hsame h
    refine ⟨h.ok, ?_, ?_, ?_, ?_, ?_⟩
    · rw [hsame.control]
      exact h.chained
    · rw [hsame.control]
      exact h.frames
    · rw [hsame.bindingStack]
      exact h.stack
    · rw [hsame.bindingStack]
      exact h.exact
    · rw [hsame.trace]
      exact h.history

theorem grows_rtUnwindTo (hev : Sound p ev) (n f : ℕ) : Grows p (rtUnwindTo ev n f) := by
  refine (grows_changeControl _ _).bind fun _ => grows_get.bind fun s₀ => ?_
  refine (grows_unwindLoop hev.grows _ _ _ _).bind fun _ => (silent_setValues _).grows.bind fun _
    => ?_
  refine grows_get.bind fun s₁ => ?_
  refine Grows.bind (triple_modify ?_ fun _ h _ => h) fun _ => ?_
  · intro s
    change s.trace <:+ (unbind _ s).trace
    rw [(unbind_eq _ s).2.2.1]
  · refine triple_ite (fun _ => grows_changeControl _ _) fun _ => ?_
    refine (grows_changeControl _ _).bind fun _ => ?_
    exact triple_modify (fun s => List.suffix_refl s.trace) fun _ h _ => h

theorem grows_jumpTo {α : Type} (hev : Sound p ev) (n f index : ℕ) (origin : Origin) :
    Grows p (do
      rtUnwindTo ev n f
      exit (.jump f index origin) : Interp α) :=
  (grows_rtUnwindTo hev n f).bind fun _ => grows_exit _

/-! ## Exits -/

/-- The exit is to a frame of the context, and for its activation. -/
def Aimed (p : Policy) (k : Context) (f index : ℕ) (origin : Origin) : Prop :=
  ∃ before after, k.chain = before ++ f :: after ∧ Jumped p k f index origin

theorem triple_jumpTo {α : Type} (hclean : p.Clean) (hev : Sound p ev) (n f index : ℕ)
    (origin : Origin) :
    Triple p.guard (fun s => Aimed p k f index origin ∧ At p k s)
      (do
        rtUnwindTo ev n f
        exit (.jump f index origin))
      (fun (_ : α) => At p k) (Left p k) := by
  refine Triple.of_imp (fun _ h => h.1) (grows_jumpTo hev n f index origin).grows ?_
  rintro ⟨before, after, hchain, hjumped⟩
  refine triple_bind ((triple_rtUnwindTo hclean hev n hchain).weaken_pre fun _ h => h.2) fun _ => ?_
  exact triple_exit fun s h _ => ⟨before, after, hchain, h, hjumped⟩

end Xcl.Interpreter
