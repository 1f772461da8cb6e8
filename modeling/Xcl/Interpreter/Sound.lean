import Xcl.Interpreter.Calls

/-!
# Every evaluation keeps its context

* `Pushed.pop`, `Pushed.arrived`: jumps past a construct and jumps to it;
* **`sound_eval`**: every evaluation keeps its context or leaves it to a frame of it.
-/

namespace Xcl.Interpreter

open Xcl.Exits Comp

variable {p : Policy} {k : Context} {ev : Form → ℕ → Interp Value} {f : ℕ} {frame : Frame}
  {stack : List (Option Value × Symbol)}

/-! ## Jumps and frames -/

theorem Pushed.split {before after : List ℕ} {g : ℕ} (h : Pushed p k f frame stack)
    (hchain : f :: k.chain = before ++ g :: after) :
    (g = f ∧ after = k.chain) ∨
      (g ≠ f ∧ ∃ before', k.chain = before' ++ g :: after) := by
  cases before with
  | nil =>
    obtain ⟨rfl, rfl⟩ := List.cons.inj hchain
    exact Or.inl ⟨rfl, rfl⟩
  | cons f' before =>
    obtain ⟨-, hchain⟩ := List.cons.inj hchain
    refine Or.inr ⟨fun heq => h.notMem ?_, before, hchain⟩
    rw [hchain, ← heq]
    exact List.mem_append_right _ List.mem_cons_self

/-- The tags that the construct adds are tags of its own frame. -/
def Context.addTags (k : Context) (tags : List Tag) : Context := { k with tags := tags ++ k.tags }

theorem Pushed.frame_of_mem {g : ℕ} (h : Pushed p k f frame stack) (tags : List Tag)
    (hg : g ∈ k.chain) : ((k.push f frame stack).addTags tags).frame g = k.frame g := by
  have hne : g ≠ f := by
    rintro rfl
    exact h.notMem hg
  exact Context.push_frame_of_ne hne frame stack

theorem Pushed.pop {tags : List Tag} {g index : ℕ} {origin : Origin} {s : Thread}
    (h : Pushed p k f frame stack) (htags : ∀ tag ∈ tags, tag.tagbody = f) (hne : g ≠ f)
    (hleft : Left p ((k.push f frame stack).addTags tags) (.jump g index origin) s) :
    Left p k (.jump g index origin) s := by
  obtain ⟨before, after, hchain, harrived, hjumped⟩ := hleft
  obtain ⟨rfl, -⟩ | ⟨-, before, hchain⟩ := h.split hchain
  · exact absurd rfl hne
  have hmem : ∀ x ∈ g :: after, x ∈ k.chain := by
    intro x hx
    rw [hchain]
    exact List.mem_append_right _ hx
  have hg := h.frame_of_mem tags (hmem g List.mem_cons_self)
  obtain ⟨hchained, hlast, hframes, hlastTag, hstack, hhistory⟩ := harrived
  obtain ⟨htype, hgoal, htag⟩ := hjumped
  rw [hg] at hlast hlastTag hstack htype hgoal htag
  refine ⟨before, after, hchain, ⟨hchained, hlast, fun x hx => ?_, hlastTag, ?_, hhistory⟩,
    ⟨htype, hgoal, ?_⟩⟩
  · have hx' := hframes x hx
    rwa [h.frame_of_mem tags (hmem x hx)] at hx'
  · rw [hstack]
    exact drop_of_suffix h.suffix (h.ok.depth g (hmem g List.mem_cons_self))
  · split at htag
    · rename_i hbody
      rw [if_pos hbody]
      obtain ⟨tag, hmemTag, htagbody, hrest⟩ := htag
      rcases List.mem_append.1 hmemTag with hown | houter
      · exact absurd (htagbody.symm.trans (htags tag hown)) hne
      · exact ⟨tag, houter, htagbody, hrest⟩
    · rename_i hbody
      rw [if_neg hbody]
      exact htag

theorem Pushed.arrived {after : List ℕ} {s : Thread} (h : Pushed p k f frame stack)
    (tags : List Tag)
    (harrived : Arrived p ((k.push f frame stack).addTags tags) f after s)
    (hafter : after = k.chain) :
    Leaving p k f s ∧ (frame.type ≠ .tagbody → s.lastTag = k.tags) ∧
      (frame.type = .tagbody → Chained s.control (f :: k.chain)) ∧
      (s.control.frames f).core = frame.core ∧ s.bindingStack = stack := by
  subst hafter
  obtain ⟨hchained, hlast, hframes, hlastTag, hstack, hhistory⟩ := harrived
  have hself : ((k.push f frame stack).addTags tags).frame f = frame :=
    Context.push_frame_self f frame stack
  rw [hself] at hlast hlastTag hstack
  have hcore := hframes f List.mem_cons_self
  rw [hself] at hcore
  have heq : s.bindingStack = stack := by
    rw [hstack, h.depth]
    change stack.drop (stack.length - stack.length) = stack
    rw [Nat.sub_self, List.drop_zero]
  have htagbody : frame.type = .tagbody → Chained s.control (f :: k.chain) := by
    intro htype
    rw [if_pos htype] at hlast
    unfold Chained
    rw [hlast]
    exact hchained
  refine ⟨⟨h.ok, ?_, hchained, fun x hx => ?_, ?_, ?_, ?_, hhistory⟩, fun htype => ?_, htagbody,
    hcore, heq⟩
  · by_cases htype : frame.type = .tagbody
    · exact ⟨_, htagbody htype⟩
    · rw [if_neg htype] at hlast
      refine ⟨k.chain, ?_⟩
      have hleave := hchained.leave.1
      rw [Frame.eq_of_core hcore Frame.lastControlFrame fun _ => rfl, ← hlast] at hleave
      exact hleave
  · have hx' := hframes x (List.mem_cons_of_mem f hx)
    rwa [h.frame_of_mem tags hx] at hx'
  · exact (Frame.eq_of_core hcore Frame.lastTag fun _ => rfl).trans h.tags
  · rw [heq]
    exact h.suffix
  · intro hp
    rw [heq]
    exact h.exact hp
  · exact (hlastTag htype).trans h.tags

/-- An exit that is not caught by a construct leaves the context around it. -/
theorem Pushed.left {e : Exit} {s : Thread} (h : Pushed p k f frame stack) (tags : List Tag)
    (htags : ∀ tag ∈ tags, tag.tagbody = f)
    (hne : ∀ index origin, e = .jump f index origin →
      ¬ Left p ((k.push f frame stack).addTags tags) (.jump f index origin) s)
    (hleft : Left p ((k.push f frame stack).addTags tags) e s) : Left p k e s := by
  cases e with
  | jump g index origin =>
    by_cases hg : g = f
    · subst hg
      exact absurd hleft (hne index origin rfl)
    · exact h.pop htags hg hleft
  | error e => exact hleft
  | int3 => exact hleft
  | undefined => exact hleft
  | timeout => exact hleft

theorem Pushed.jumped {index : ℕ} {origin : Origin} {s : Thread}
    (h : Pushed p k f frame stack) (tags : List Tag)
    (hleft : Left p ((k.push f frame stack).addTags tags) (.jump f index origin) s) :
    Arrived p ((k.push f frame stack).addTags tags) f k.chain s ∧
      Jumped p ((k.push f frame stack).addTags tags) f index origin := by
  obtain ⟨before, after, hchain, harrived, hjumped⟩ := hleft
  obtain ⟨-, rfl⟩ | ⟨hne, -⟩ := h.split hchain
  · exact ⟨harrived, hjumped⟩
  · exact absurd rfl hne

/-! ## UNWIND-PROTECT -/

theorem keeps_clUnwindProtect (hev : Sound p ev) (form : Form) (cleanupForms : List Form)
    (env : ℕ) : Keeps p (clUnwindProtect ev form cleanupForms env) := by
  intro k
  refine triple_forall Thread.bindingStack fun stack => ?_
  refine triple_bind (triple_addUnwindProtect cleanupForms env) fun f => ?_
  refine triple_forall (fun s => (s.control.frames f).core) fun frame => ?_
  refine Triple.weaken_pre (S := fun s => (Pushed p k f frame stack ∧
    frame.type = .unwindProtect) ∧ At p (k.push f frame stack) s) ?_ ?_
  · refine triple_bind (Q := fun _ s => Leaving p k f s ∧ s.lastTag = k.tags) ?_ fun result => ?_
    · refine ((hev form env _).frame _).conseq (fun _ => id)
        (fun _ s h => h.1.1.leaving h.2) fun e s h => ?_
      refine h.1.1.left [] (fun _ h => absurd h List.not_mem_nil) ?_ h.2
      rintro index origin - hleft
      -- no exit is to the frame of an UNWIND-PROTECT
      have htype := (h.1.1.jumped [] hleft).2.type
      rw [show ((k.push f frame stack).addTags []).frame f = frame from
        Context.push_frame_self f frame stack] at htype
      exact htype h.1.2
    · refine triple_bind (triple_get (Q := fun _ s => Leaving p k f s ∧ s.lastTag = k.tags)
        fun _ h _ => h) fun s₀ => ?_
      refine triple_bind triple_restoreLastControlFrame fun _ => ?_
      refine triple_bind triple_releaseFrame fun _ => ?_
      refine triple_bind ((compositional_keeps p).evalAll hev env cleanupForms k) fun _ => ?_
      exact triple_bind ((silent_setValues _).keeps k) fun _ => keeps_pure result k
  · rintro s ⟨⟨⟨hpushed, hat⟩, htype⟩, rfl⟩
    exact ⟨⟨hpushed, htype⟩, hat⟩

/-! ## BLOCK -/

theorem silent_deliveredValue : Silent deliveredValue := by
  refine silent_get.bind fun s => ?_
  dsimp only
  split
  · exact silent_pure _
  · split
    · exact silent_clearValues.bind fun _ => silent_pure _
    · exact silent_pure _

theorem Leaving.same {s s' : Thread} (hsame : Same s s')
    (h : Leaving p k f s ∧ s.lastTag = k.tags) : Leaving p k f s' ∧ s'.lastTag = k.tags := by
  obtain ⟨⟨hok, hlive, hchained, hframes, hsaved, hstack, hexact, hhistory⟩, htags⟩ := h
  rw [← hsame.control] at hlive hchained hframes hsaved
  rw [← hsame.bindingStack] at hstack hexact
  rw [← hsame.trace] at hhistory
  rw [← hsame.lastTag] at htags
  exact ⟨⟨hok, hlive, hchained, hframes, hsaved, hstack, hexact, hhistory⟩, htags⟩

theorem triple_recordLeaving {step : Step} {E : Exit → Thread → Prop}
    (hstep : ∀ f, step ≠ .release f := by simp) :
    Triple p.guard (fun s => (∀ m : Moment, m.step = step → p.Lexical → m.Right) ∧
      Leaving p k f s ∧ s.lastTag = k.tags) (record step)
      (fun _ s => Leaving p k f s ∧ s.lastTag = k.tags) E := by
  refine triple_changeControl ?_
  rintro s ⟨hright, h, htags⟩ -
  obtain ⟨chain, hlive⟩ := h.live
  exact ⟨⟨h.ok, h.live, h.chained, h.frames, h.saved, h.stack, h.exact,
    h.history.cons (fun _ => hlive) (hright _ rfl) hstep⟩, htags⟩

/-- The step with which an exit arrives at a BLOCK or a CATCH is right. -/
def RightAt (p : Policy) (activation : ℕ) (origin : Origin) : Prop :=
  ∀ delivered, ∀ m : Moment, m.step = .arrive activation none origin delivered →
    p.Lexical → m.Right

theorem Pushed.caught {index : ℕ} {origin : Origin} {s : Thread}
    (h : Pushed p k f frame stack) (htype : frame.type ≠ .tagbody)
    (hleft : Left p (k.push f frame stack) (.jump f index origin) s) :
    RightAt p frame.activation origin ∧ Leaving p k f s ∧ s.lastTag = k.tags ∧
      (s.control.frames f).core = frame.core := by
  obtain ⟨harrived, hjumped⟩ := h.jumped [] hleft
  obtain ⟨hleaving, htags, -, hcore, -⟩ := h.arrived [] harrived rfl
  have hself : ((k.push f frame stack).addTags []).frame f = frame :=
    Context.push_frame_self f frame stack
  obtain ⟨-, hgoal, htag⟩ := hjumped
  rw [hself] at hgoal htag
  rw [if_neg htype] at htag
  refine ⟨fun delivered m hm hp => ?_, hleaving, htags htype, hcore⟩
  rw [Moment.Right, hm]
  exact ⟨hgoal hp, htag⟩

theorem keeps_clBlock (hev : Sound p ev) (name : Symbol) (body : List Form) (env : ℕ) :
    Keeps p (clBlock ev name body env) := by
  intro k
  refine triple_forall Thread.bindingStack fun stack => ?_
  refine triple_bind (triple_addBlock name) fun r => ?_
  obtain ⟨f, activation⟩ := r
  refine triple_forall (fun s => (s.control.frames f).core) fun frame => ?_
  refine Triple.weaken_pre (S := fun s => (Pushed p k f frame stack ∧
    frame.activation = activation ∧ frame.type = .block) ∧ At p (k.push f frame stack) s) ?_ ?_
  · refine triple_bind (Q := fun _ s => Leaving p k f s ∧ s.lastTag = k.tags) ?_ fun result =>
      triple_bind triple_leave fun _ => keeps_pure result k
    have hbody : Keeps p (do
        let ext ← newEnvironment env
        changeEnvironment ext fun e => { e with blocks := (name, activation) :: e.blocks }
        Closure.progn ev ext body .nil) :=
      (silent_newEnvironment env).keeps.bind fun ext =>
        (silent_changeEnvironment ext _).keeps.bind fun _ => (compositional_keeps p).progn hev ext
          body .nil
    refine triple_catchExit (((hbody _).frame _).conseq (fun _ => id)
      (fun _ s h => h.1.1.leaving h.2) fun _ _ => id) ?_ ?_
    · intro e handler hhandler
      split at hhandler
      · rename_i g index origin
        split at hhandler
        · rename_i hg
          subst hg
          obtain rfl := Option.some.inj hhandler
          refine Triple.weaken_pre (S := fun s => RightAt p activation origin ∧
            Leaving p k g s ∧ s.lastTag = k.tags) ?_ ?_
          · refine triple_bind (silent_deliveredValue.triple fun _ _ hsame h =>
              ⟨h.1, Leaving.same hsame h.2⟩) fun result => ?_
            refine triple_bind ?_ fun _ => triple_pure fun _ h _ => h
            refine triple_bind (triple_get (Q := fun _ s => RightAt p activation origin ∧
              Leaving p k g s ∧ s.lastTag = k.tags) fun _ h _ => h) fun s₀ => ?_
            exact (triple_recordLeaving).weaken_pre fun _ h => ⟨h.1 _, h.2⟩
          · rintro s ⟨⟨hpushed, rfl, htype⟩, hleft⟩
            have hne : frame.type ≠ .tagbody := by simp [htype]
            obtain ⟨hright, hleaving, htags, -⟩ := hpushed.caught hne hleft
            exact ⟨hright, hleaving, htags⟩
        · cases hhandler
      · cases hhandler
    · intro e s hnone h
      refine h.1.1.left [] (fun _ h => absurd h List.not_mem_nil) ?_ h.2
      rintro index origin rfl -
      simp at hnone
  · rintro s ⟨⟨⟨hpushed, hat⟩, hactivation, htype⟩, rfl⟩
    exact ⟨⟨hpushed, hactivation, htype⟩, hat⟩

/-! ## CATCH -/

theorem triple_setLastTag {tags : List Tag} {E : Exit → Thread → Prop} :
    Triple p.guard (fun s => tags = k.tags ∧ At p k s ∧ Fresh s.control k.chain f)
      (setLastTag tags) (fun _ s => At p k s ∧ Fresh s.control k.chain f) E := by
  refine triple_modify (fun s => List.suffix_refl s.trace) ?_
  rintro s ⟨htags, h, hfresh⟩ -
  exact ⟨⟨h.ok, h.chained, h.frames, htags, h.stack, h.exact, h.history⟩, hfresh⟩

theorem triple_rtCaughtThrow {c : Prop} {E : Exit → Thread → Prop} :
    Triple p.guard (fun s => c ∧ Leaving p k f s ∧ s.lastTag = k.tags) (rtCaughtThrow f)
      (fun _ s => c ∧ At p k s) E := by
  refine Triple.carry ?_ c
  refine triple_bind (triple_get (Q := fun s₀ s => (s₀.control.frames f).lastTag = k.tags ∧
    Leaving p k f s ∧ s.lastTag = k.tags) fun s h _ => ⟨h.1.saved, h⟩) fun s₀ => ?_
  refine triple_bind (triple_restoreLastControlFrame.carry _) fun _ => ?_
  refine triple_bind triple_setLastTag fun _ => ?_
  refine triple_bind triple_releaseFrame fun _ => ?_
  exact silent_deliveredValue.triple fun _ _ => At.same

theorem triple_recordArrival {activation : ℕ} {origin : Origin} {result : Value} :
    Triple p.guard (fun s => RightAt p activation origin ∧ At p k s)
      (recordArrival activation origin result) (fun _ => At p k) (Left p k) := by
  refine triple_bind (triple_get (Q := fun _ s => RightAt p activation origin ∧ At p k s)
    fun _ h _ => h) fun s₀ => ?_
  exact (triple_recordRight).weaken_pre fun _ h => ⟨h.1 _, h.2⟩

theorem keeps_clCatch (hev : Sound p ev) (tag : Form) (body : List Form) (env : ℕ) :
    Keeps p (clCatch ev tag body env) := by
  refine (hev tag env).bind fun tag => ?_
  intro k
  refine triple_forall Thread.bindingStack fun stack => ?_
  refine triple_bind (triple_addCatchFrame tag) fun f => ?_
  refine triple_forall (fun s => (s.control.frames f).core) fun frame => ?_
  refine Triple.weaken_pre (S := fun s => (Pushed p k f frame stack ∧ frame.type = .catch) ∧
    (s.control.frames f).core = frame ∧ At p (k.push f frame stack) s) ?_ ?_
  · refine triple_bind (triple_get (Q := fun s₀ s => (Pushed p k f frame stack ∧
      frame.type = .catch ∧ (s₀.control.frames f).activation = frame.activation) ∧
      At p (k.push f frame stack) s) fun s h _ => ⟨⟨h.1.1, h.1.2, ?_⟩, h.2.2⟩) fun s₀ => ?_
    · rw [← h.2.1]
      rfl
    have hbody : Keeps p (do
        let ext ← newEnvironment env
        Closure.progn ev ext body .nil) :=
      (silent_newEnvironment env).keeps.bind fun ext => (compositional_keeps p).progn hev ext body
        .nil
    refine triple_catchExit (F := fun e s => (Pushed p k f frame stack ∧ frame.type = .catch ∧
      (s₀.control.frames f).activation = frame.activation) ∧
      Left p (k.push f frame stack) e s) ?_ ?_ ?_
    · rw [← bind_assoc]
      refine triple_bind (((hbody _).frame _).conseq (fun _ => id)
        (fun _ s h => h.1.1.leaving h.2) fun _ _ => id) fun result => ?_
      refine triple_bind triple_restoreLastControlFrame fun _ => ?_
      exact triple_bind triple_releaseFrame fun _ => triple_pure fun _ h _ => h
    · intro e handler hhandler
      split at hhandler
      · rename_i g index origin
        split at hhandler
        · rename_i hg
          subst hg
          obtain rfl := Option.some.inj hhandler
          refine Triple.weaken_pre (S := fun s =>
            RightAt p (s₀.control.frames g).activation origin ∧
              Leaving p k g s ∧ s.lastTag = k.tags) ?_ ?_
          · refine triple_bind triple_rtCaughtThrow fun result => ?_
            exact triple_bind triple_recordArrival fun _ => triple_pure fun _ h _ => h
          · rintro s ⟨⟨hpushed, htype, hactivation⟩, hleft⟩
            have hne : frame.type ≠ .tagbody := by simp [htype]
            obtain ⟨hright, hleaving, htags, -⟩ := hpushed.caught hne hleft
            exact ⟨hactivation ▸ hright, hleaving, htags⟩
        · cases hhandler
      · cases hhandler
    · intro e s hnone h
      refine h.1.1.left [] (fun _ h => absurd h List.not_mem_nil) ?_ h.2
      rintro index origin rfl -
      simp at hnone
  · rintro s ⟨⟨⟨hpushed, hat⟩, htype⟩, rfl⟩
    exact ⟨⟨hpushed, htype⟩, rfl, hat⟩

/-! ## Exits to BLOCK and CATCH -/

theorem IsChain.unique {frames : ℕ → Frame} {start : Option ℕ} {chain chain' : List ℕ}
    (h : IsChain frames start chain) (h' : IsChain frames start chain') : chain = chain' := by
  induction chain generalizing start chain' with
  | nil =>
    cases chain' with
    | nil => rfl
    | cons g gs =>
      rw [show start = none from h] at h'
      cases h'.1
  | cons g gs ih =>
    obtain ⟨rfl, -, hrest⟩ := h
    cases chain' with
    | nil => cases h'
    | cons g' gs' =>
      obtain ⟨hg, -, hrest'⟩ := h'
      obtain rfl := Option.some.inj hg
      rw [ih hrest hrest']

theorem find_eq_of_first {t : ℕ → Bool} {before after : List ℕ} {g : ℕ} (hg : t g)
    (hbefore : ∀ x ∈ before, ¬ t x) : (before ++ g :: after).find? t = some g := by
  rw [List.find?_append, List.find?_eq_none.2 hbefore, List.find?_cons_of_pos hg]
  rfl

theorem aimed_of_mem {g index : ℕ} {origin : Origin} (hmem : g ∈ k.chain)
    (hjumped : Jumped p k g index origin) : Aimed p k g index origin := by
  obtain ⟨before, after, hchain⟩ := List.append_of_mem hmem
  exact ⟨before, after, hchain, hjumped⟩

theorem At.type {s : Thread} {g : ℕ} (h : At p k s) (hg : g ∈ k.chain) :
    (s.control.frames g).type = (k.frame g).type :=
  Frame.eq_of_core (h.frames g hg) Frame.type fun _ => rfl

theorem At.activation {s : Thread} {g : ℕ} (h : At p k s) (hg : g ∈ k.chain) :
    (s.control.frames g).activation = (k.frame g).activation :=
  Frame.eq_of_core (h.frames g hg) Frame.activation fun _ => rfl

theorem At.aimed_findBlock {s : Thread} {name : Symbol} {goal : Option ℕ} {g : ℕ}
    {delivered : List Value} (h : At p k s)
    (hunshadowed : p.Lexical →
      Moment.Unshadowed ⟨.returnFrom name goal, s.control, s.bindingStack⟩)
    (hfind : findBlock name s.control = some (some g)) :
    Aimed p k g 1 ⟨goal, none, delivered⟩ := by
  unfold findBlock at hfind
  rw [h.chained.find] at hfind
  have hfind := Option.some.inj hfind
  have hmem := List.mem_of_find?_eq_some hfind
  have htype : (k.frame g).type = .block := by
    have htest := List.find?_some hfind
    rw [Bool.and_eq_true, decide_eq_true_iff] at htest
    exact (h.type hmem).symm.trans htest.1
  refine aimed_of_mem hmem ⟨by simp [htype], fun hp => ?_, by simp [htype]⟩
  obtain ⟨before, g', after, hchain, htype', hname, hgoal, hbefore⟩ := hunshadowed hp
  obtain rfl : g = g' := by
    rw [h.chained.isChain.unique hchain] at hfind
    refine Option.some.inj (hfind.symm.trans (find_eq_of_first ?_ fun x hx htest => ?_))
    · rw [Bool.and_eq_true, decide_eq_true_iff, decide_eq_true_iff]
      exact ⟨htype', hname⟩
    · rw [Bool.and_eq_true, decide_eq_true_iff, decide_eq_true_iff] at htest
      exact hbefore x hx htest.1 htest.2
  exact hgoal.trans (congrArg some (h.activation hmem))

theorem At.findBlock_ne_none {s : Thread} {name : Symbol} {goal : Option ℕ} (h : At p k s)
    (hunshadowed : Moment.Unshadowed ⟨.returnFrom name goal, s.control, s.bindingStack⟩) :
    findBlock name s.control ≠ some none := by
  obtain ⟨before, g, after, hchain, htype, hname, -⟩ := hunshadowed
  unfold findBlock
  rw [h.chained.find, h.chained.isChain.unique hchain]
  intro hnone
  refine List.find?_eq_none.1 (Option.some.inj hnone) g
    (List.mem_append_right _ List.mem_cons_self) ?_
  rw [Bool.and_eq_true, decide_eq_true_iff, decide_eq_true_iff]
  exact ⟨htype, hname⟩

theorem keeps_rtReturnFrom (hclean : p.Clean) (hev : Sound p ev) (n : ℕ) (name : Symbol) (goal :
    Option ℕ)
    (result : Value) : Keeps p (rtReturnFrom ev n name goal result) := by
  intro k
  refine triple_bind (Q := fun _ s => At p k s ∧ (p.Lexical →
    Moment.Unshadowed ⟨.returnFrom name goal, s.control, s.bindingStack⟩)) ?_ fun _ => ?_
  · refine triple_changeControl fun s h hmeets => ?_
    exact ⟨h.change h.chained (fun _ _ => rfl) rfl fun _ => trivial, fun hp => hp _ hmeets⟩
  refine triple_bind (triple_get (Q := fun s₀ s => (∀ g delivered,
    findBlock name s₀.control = some (some g) →
      Aimed p k g 1 ⟨goal, none, delivered⟩) ∧
      (p.Lexical → findBlock name s₀.control ≠ some none) ∧ At p k s) fun s h _ =>
    ⟨fun g delivered hfind => h.1.aimed_findBlock h.2 hfind,
      fun hp => h.1.findBlock_ne_none (h.2 hp), h.1⟩) fun s₀ => ?_
  split
  · exact triple_exit fun _ h _ => h.2.2.history
  · rename_i hfind
    exact triple_exit fun _ h _ => ⟨h.2.2.history, fun hp => absurd hfind (h.2.1 hp)⟩
  · rename_i g hfind
    have hjump := triple_jumpTo (p := p) (k := k) (α := Value) hclean hev n g 1
      ⟨goal, none, s₀.values.denote result⟩
    refine triple_ite (fun _ => ?_) fun _ => hjump.weaken_pre fun _ h => ⟨h.1 g _ hfind, h.2.2⟩
    refine triple_bind ?_ fun _ => hjump
    exact (silent_setValue result).triple (fun _ _ hsame h => ⟨h.1, h.2.same hsame⟩)
      |>.weaken_pre fun _ h => ⟨h.1 g _ hfind, h.2.2⟩

theorem keeps_clReturnFrom (hclean : p.Clean) (hev : Sound p ev) (n : ℕ) (name : Symbol) (result :
    Option Form)
    (env : ℕ) : Keeps p (clReturnFrom ev n name result env) := by
  refine ((compositional_keeps p).evalInitform hev env result).bind fun result => ?_
  exact silent_get.keeps.bind fun s₀ => keeps_rtReturnFrom hclean hev n name _ result

theorem At.aimed_findCatchFrame {s : Thread} {tag : Value} {g : ℕ} {delivered : List Value}
    (h : At p k s) (hfind : findCatchFrame tag s.control = some (some g)) :
    Aimed p k g 1 ⟨some (s.control.frames g).activation, none, delivered⟩ := by
  unfold findCatchFrame at hfind
  rw [h.chained.find] at hfind
  have hfind := Option.some.inj hfind
  have hmem := List.mem_of_find?_eq_some hfind
  have htype : (k.frame g).type = .catch := by
    have htest := List.find?_some hfind
    rw [Bool.and_eq_true, decide_eq_true_iff] at htest
    exact (h.type hmem).symm.trans htest.1
  exact aimed_of_mem hmem
    ⟨by simp [htype], fun _ => congrArg some (h.activation hmem), by simp [htype]⟩

theorem keeps_rtThrow (hclean : p.Clean) (hev : Sound p ev) (n : ℕ) (tag result : Value) :
    Keeps p (rtThrow ev n tag result) := by
  intro k
  refine triple_bind (triple_get (Q := fun s₀ s => (∀ g delivered,
    findCatchFrame tag s₀.control = some (some g) →
      Aimed p k g 1 ⟨some (s₀.control.frames g).activation, none, delivered⟩) ∧ At p k s)
    fun s h _ => ⟨fun g delivered hfind => h.aimed_findCatchFrame hfind, h⟩) fun s₀ => ?_
  split
  · exact triple_exit fun _ h _ => h.2.history
  · exact triple_exit fun _ h _ => ⟨h.2.history, fun _ => id⟩
  · rename_i g hfind
    have hjump := triple_jumpTo (p := p) (k := k) (α := Value) hclean hev n g 1
      ⟨some (s₀.control.frames g).activation, none, s₀.values.denote result⟩
    refine triple_ite (fun _ => ?_) fun _ => hjump.weaken_pre fun _ h => ⟨h.1 g _ hfind, h.2⟩
    refine triple_bind ?_ fun _ => hjump
    exact (silent_setValue result).triple (fun _ _ hsame h => ⟨h.1, h.2.same hsame⟩)
      |>.weaken_pre fun _ h => ⟨h.1 g _ hfind, h.2⟩

theorem keeps_clThrow (hclean : p.Clean) (hev : Sound p ev) (n : ℕ) (tag result : Form) (env : ℕ) :
    Keeps p (clThrow ev n tag result env) :=
  (hev tag env).bind fun tag => (hev result env).bind fun result => keeps_rtThrow hclean hev n tag
    result

/-! ## GO -/

def Visible (p : Policy) (k : Context) (name : TagName) (goal : Option ℕ) (tag : Tag) : Prop :=
  tag ∈ k.tags ∧ tag.name = name ∧ (p.Lexical → goal = some tag.activation)

theorem At.visible {s : Thread} {name : TagName} {goal : Option ℕ} {tag : Tag} (h : At p k s)
    (hunshadowed : p.Lexical →
      Moment.Unshadowed ⟨.go name goal s.lastTag, s.control, s.bindingStack⟩)
    (hfind : findTag name s.lastTag = some tag) : Visible p k name goal tag := by
  have hname : tag.name = name := by simpa using List.find?_some hfind
  refine ⟨h.tags ▸ List.mem_of_find?_eq_some hfind, hname, fun hp => ?_⟩
  obtain ⟨before, tag', after, htags, hname', hgoal, hbefore⟩ := hunshadowed hp
  obtain rfl : tag = tag' := by
    unfold findTag at hfind
    rw [htags, List.find?_append, List.find?_eq_none.2 ?_, List.find?_cons_of_pos ?_] at hfind
    · exact (Option.some.inj hfind).symm
    · exact decide_eq_true hname'
    · intro t ht
      simpa using hbefore t ht
  exact hgoal

theorem findTag_ne_none {name : TagName} {goal : Option ℕ} {tags : List Tag} {c : Control}
    {stack : List (Option Value × Symbol)}
    (hunshadowed : Moment.Unshadowed ⟨.go name goal tags, c, stack⟩) :
    findTag name tags ≠ none := by
  obtain ⟨before, tag, after, rfl, hname, -⟩ := hunshadowed
  intro hnone
  refine List.find?_eq_none.1 hnone tag (List.mem_append_right _ List.mem_cons_self) ?_
  exact decide_eq_true hname

theorem triple_visibleTag (name : TagName) (env : ℕ) :
    Triple p.guard (At p k) (visibleTag name env)
      (fun r s => Visible p k name r.1 r.2 ∧ At p k s) (Left p k) := by
  refine triple_bind (triple_get (Q := fun s₀ s => s = s₀ ∧ At p k s) fun _ h _ => ⟨rfl, h⟩)
    fun s₀ => ?_
  refine triple_bind (Q := fun _ s => ((p.Lexical → findTag name s₀.lastTag ≠ none) ∧
    ∀ tag, findTag name s₀.lastTag = some tag →
      Visible p k name (Environment.goal name (s₀.heap.environments env).tags) tag) ∧ At p k s) ?_
    fun _ => ?_
  · refine triple_changeControl ?_
    rintro s ⟨rfl, h⟩ hmeets
    exact ⟨⟨fun hp => findTag_ne_none (hp _ hmeets), fun tag hfind =>
      h.visible (fun hp => hp _ hmeets) hfind⟩,
      h.change h.chained (fun _ _ => rfl) rfl fun _ => trivial⟩
  split
  · rename_i hfind
    exact triple_exit fun _ h _ => ⟨h.2.history, fun hp => absurd hfind (h.1.1 hp)⟩
  · rename_i tag hfind
    exact triple_pure fun _ h _ => ⟨h.1.2 tag hfind, h.2⟩

theorem Visible.aimed {name : TagName} {goal : Option ℕ} {tag : Tag}
    (h : Visible p k name goal tag) (hok : k.Ok) :
    Aimed p k tag.tagbody tag.index ⟨goal, some name, []⟩ := by
  obtain ⟨hmem, hname, hgoal⟩ := h
  obtain ⟨hchain, htype, hactivation⟩ := hok.tagsOf tag hmem
  refine aimed_of_mem hchain ⟨by simp [htype], fun hp => ?_, ?_⟩
  · rw [hactivation]
    exact hgoal hp
  · rw [if_pos htype]
    exact ⟨tag, hmem, rfl, rfl, congrArg some hname.symm⟩

theorem triple_goToVisibleTag (hclean : p.Clean) (hev : Sound p ev) (n : ℕ) (name : TagName) (goal
    : Option ℕ)
    (tag : Tag) :
    Triple p.guard (fun s => Visible p k name goal tag ∧ At p k s)
      (goToVisibleTag ev n name goal tag) (fun _ => At p k) (Left p k) := by
  refine triple_bind (silent_clearValues.triple fun _ _ hsame h => ⟨h.1, h.2.same hsame⟩)
    fun _ => ?_
  exact (triple_jumpTo hclean hev n _ _ _).weaken_pre fun _ h => ⟨h.1.aimed h.2.ok, h.2⟩

theorem keeps_clGo (hclean : p.Clean) (hev : Sound p ev) (n : ℕ) (name : TagName) (env : ℕ) :
    Keeps p (clGo ev n name env) := fun _ =>
  triple_bind (triple_visibleTag name env) fun r => triple_goToVisibleTag hclean hev n name r.1 r.2

/-! ## TAGBODY -/

theorem addTags_eq (f activation : ℕ) (body : List Item) (index : ℕ) (tags : List Tag) :
    ∃ own, addTags f activation body index tags = own ++ tags ∧
      (∀ tag ∈ own, tag.tagbody = f ∧ tag.activation = activation ∧ index ≤ tag.index) ∧
      own.Pairwise fun tag tag' => tag.index ≠ tag'.index := by
  induction body generalizing index tags with
  | nil => exact ⟨[], rfl, fun _ h => absurd h List.not_mem_nil, List.Pairwise.nil⟩
  | cons item body ih =>
    cases item with
    | form form => exact ih index tags
    | tag name =>
      obtain ⟨own, heq, hown, hindex⟩ := ih (index + 1)
        (⟨name, f, body, index, activation⟩ :: tags)
      refine ⟨own ++ [⟨name, f, body, index, activation⟩], ?_, fun tag htag => ?_, ?_⟩
      · rw [addTags, heq]
        simp
      · rcases List.mem_append.1 htag with htag | htag
        · obtain ⟨hbody, hactivation, hle⟩ := hown tag htag
          exact ⟨hbody, hactivation, Nat.le_of_succ_le hle⟩
        · obtain rfl := List.mem_singleton.1 htag
          exact ⟨rfl, rfl, le_rfl⟩
      · refine List.pairwise_append.2 ⟨hindex, List.pairwise_singleton _ _, fun tag htag tag' h =>
          ?_⟩
        obtain rfl := List.mem_singleton.1 h
        exact (Nat.lt_of_succ_le (hown tag htag).2.2).ne'

structure OwnTags (k : Context) (f activation : ℕ) (own : List Tag) : Prop where
  tagbody : ∀ tag ∈ own, tag.tagbody = f
  activation : ∀ tag ∈ own, tag.activation = activation
  index : own.Pairwise fun tag tag' => tag.index ≠ tag'.index
  others : ∀ tag ∈ k.tags, tag.tagbody ≠ f

theorem OwnTags.find {activation : ℕ} {own : List Tag} (h : OwnTags k f activation own) {tag : Tag}
    (hmem : tag ∈ own ++ k.tags) (hf : tag.tagbody = f) :
    (own ++ k.tags).find? (fun t => t.tagbody = f && t.index = tag.index) = some tag := by
  have hown : tag ∈ own := (List.mem_append.1 hmem).resolve_right fun hk => h.others tag hk hf
  obtain ⟨before, after, heq⟩ := List.append_of_mem hown
  have hindex := h.index
  rw [heq, List.pairwise_append] at hindex
  rw [heq, List.append_assoc, List.find?_append, List.find?_eq_none.2 ?_, List.cons_append,
    List.find?_cons_of_pos ?_]
  · rfl
  · simp [hf]
  · intro t ht htest
    rw [Bool.and_eq_true, decide_eq_true_iff, decide_eq_true_iff] at htest
    exact hindex.2.2 t ht tag List.mem_cons_self htest.2

theorem Pushed.okTags {activation : ℕ} {own : List Tag} (h : Pushed p k f frame stack)
    (htype : frame.type = .tagbody) (hactivation : frame.activation = activation)
    (hown : OwnTags k f activation own) : ((k.push f frame stack).addTags own).Ok := by
  have hok := h.ok.push h.notMem h.suffix h.depth.le h.tags
  refine ⟨hok.depth, fun tag htag => ?_, hok.savedTagsOf⟩
  rcases List.mem_append.1 htag with htag | htag
  · have hself : (k.push f frame stack).frame f = frame := Context.push_frame_self f frame stack
    change tag.tagbody ∈ (k.push f frame stack).chain ∧
      ((k.push f frame stack).frame tag.tagbody).type = .tagbody ∧
      ((k.push f frame stack).frame tag.tagbody).activation = tag.activation
    rw [hown.tagbody tag htag, hown.activation tag htag, hself]
    exact ⟨List.mem_cons_self, htype, hactivation⟩
  · exact hok.tagsOf tag htag

theorem right_arrive {m : Moment} {activation : ℕ} {tag : Option TagName} {origin : Origin}
    {delivered : List Value} (hm : m.step = .arrive activation tag origin delivered)
    (hgoal : origin.goal = some activation) (htag : origin.tag = tag) : m.Right := by
  rw [Moment.Right, hm]
  exact ⟨hgoal, htag⟩

theorem keeps_tagbodyRun (hclean : p.Clean) (hev : Sound p ev) {activation : ℕ} {own : List Tag}
    (hown : OwnTags k f activation own) (ext n : ℕ) (remaining : List Item) :
    Triple p.guard (At p ((k.push f frame stack).addTags own))
      (tagbodyRun ev f activation ext n remaining)
      (fun _ => At p ((k.push f frame stack).addTags own))
      (Left p ((k.push f frame stack).addTags own)) := by
  induction n generalizing remaining with
  | zero => exact keeps_timeout _
  | succ n ih =>
    match remaining with
    | [] => exact keeps_pure () _
    | .tag _ :: remaining => exact ih remaining
    | .form form :: remaining =>
      have hform : Triple p.guard (At p ((k.push f frame stack).addTags own))
          (do
            let _ ← ev form ext
            tagbodyRun ev f activation ext n remaining)
          (fun _ => At p ((k.push f frame stack).addTags own))
          (Left p ((k.push f frame stack).addTags own)) :=
        triple_bind (hev form ext _) fun _ => ih remaining
      cases form with
      | go name =>
        refine triple_bind (triple_visibleTag name ext) fun r => ?_
        obtain ⟨goal, tag⟩ := r
        refine triple_ite (fun hf => ?_) fun _ => ?_
        · refine triple_bind ((triple_recordRight).weaken_pre fun s h => ⟨fun m hm hp => ?_, h.2⟩)
            fun _ => ih _
          obtain ⟨⟨hmem, hname, hgoal⟩, -⟩ := h
          have hactivation : tag.activation = activation := by
            rcases List.mem_append.1 hmem with hmem | hmem
            · exact hown.activation tag hmem
            · exact absurd hf (hown.others tag hmem)
          exact right_arrive hm (hactivation ▸ hgoal hp) (congrArg some hname.symm)
        · exact triple_bind (triple_goToVisibleTag hclean hev n name goal tag) fun _ => ih remaining
      | _ => exact hform

theorem grows_setLastTag {tags : List Tag} : Grows p (setLastTag tags) :=
  triple_modify (fun s => List.suffix_refl s.trace) fun _ h _ => h

theorem grows_visibleTag (name : TagName) (env : ℕ) : Grows p (visibleTag name env) := by
  refine grows_get.bind fun s₀ => (grows_changeControl _ _).bind fun _ => ?_
  split
  · exact grows_exit _
  · exact grows_pure _

theorem grows_tagbodyRun (hev : Sound p ev) (f activation ext n : ℕ) (remaining : List Item) :
    Grows p (tagbodyRun ev f activation ext n remaining) := by
  induction n generalizing remaining with
  | zero => exact grows_exit _
  | succ n ih =>
    match remaining with
    | [] => exact grows_pure ()
    | .tag _ :: remaining => exact ih remaining
    | .form form :: remaining =>
      cases form with
      | go name =>
        refine (grows_visibleTag name ext).bind fun r => ?_
        refine triple_ite (fun _ => (grows_changeControl _ _).bind fun _ => ih _) fun _ => ?_
        exact Grows.bind (silent_clearValues.grows.bind fun _ => grows_jumpTo hev _ _ _ _)
          fun _ => ih remaining
      | _ => exact (hev.grows _ _).bind fun _ => ih remaining

theorem grows_tagbodyLoop (hev : Sound p ev) (f activation ext : ℕ) (lastTag : List Tag) (n : ℕ)
    (remaining : List Item) :
    Grows p (tagbodyLoop ev f activation ext lastTag n remaining) := by
  induction n generalizing remaining with
  | zero => exact grows_exit _
  | succ n ih =>
    refine (grows_tagbodyRun hev f activation ext n remaining).catchExit fun e h hhandler => ?_
    split at hhandler
    · split at hhandler
      · obtain rfl := Option.some.inj hhandler
        refine grows_setLastTag.bind fun _ => ?_
        split
        · exact (grows_changeControl _ _).bind fun _ => ih _
        · exact grows_exit _
      · cases hhandler
    · cases hhandler

theorem keeps_tagbodyLoop (hclean : p.Clean) (hev : Sound p ev) (h : Pushed p k f frame stack)
    (htype : frame.type = .tagbody) {activation : ℕ} (hactivation : frame.activation = activation)
    {own : List Tag} (hown : OwnTags k f activation own) (ext n : ℕ) (remaining : List Item) :
    Triple p.guard (At p ((k.push f frame stack).addTags own))
      (tagbodyLoop ev f activation ext (own ++ k.tags) n remaining)
      (fun _ => At p ((k.push f frame stack).addTags own)) (Left p k) := by
  have hself : ((k.push f frame stack).addTags own).frame f = frame :=
    Context.push_frame_self f frame stack
  induction n generalizing remaining with
  | zero => exact triple_exit fun _ hat _ => hat.history
  | succ n ih =>
    refine triple_catchExit (keeps_tagbodyRun hclean hev hown ext n remaining) ?_ ?_
    · intro e handler hhandler
      split at hhandler
      · rename_i g index origin
        split at hhandler
        · rename_i hg
          subst hg
          obtain rfl := Option.some.inj hhandler
          refine triple_bind (triple_modify (Q := fun _ s => (p.Lexical →
            origin.goal = some activation) ∧ (∃ tag ∈ own ++ k.tags, tag.tagbody = g ∧
              tag.index = index ∧ origin.tag = some tag.name) ∧
            At p ((k.push g frame stack).addTags own) s) (fun s => List.suffix_refl s.trace) ?_)
            fun _ => ?_
          · intro s hleft _
            obtain ⟨harrived, hjumped⟩ := h.jumped _ hleft
            obtain ⟨hleaving, -, hlive, hcore, hstack⟩ := h.arrived _ harrived rfl
            obtain ⟨-, hgoal, htag⟩ := hjumped
            rw [hself] at hgoal htag
            rw [if_pos htype] at htag
            refine ⟨fun hp => hactivation ▸ hgoal hp, htag, ?_⟩
            exact ⟨h.okTags htype hactivation hown, hlive htype, harrived.frames, rfl,
              hstack ▸ List.suffix_refl _, fun _ => hstack, harrived.history⟩
          · refine Triple.of_imp (fun s hat => And.intro hat.1 hat.2.1) ?_ ?_
            · refine Triple.grows (P := fun _ => False) (Q := fun _ _ => False)
                (E := fun _ _ => False) ?_
              split
              · exact (grows_changeControl _ _).bind fun _ => grows_tagbodyLoop hev _ _ _ _ _ _
              · exact grows_exit _
            · rintro ⟨hgoal, tag, hmem, hbody, rfl, htag⟩
              rw [hown.find hmem hbody]
              refine triple_bind ((triple_recordRight).weaken_pre fun s hat =>
                ⟨fun m hm hp => right_arrive hm (hgoal hp) htag, hat.2.2⟩) fun _ => ih _
        · cases hhandler
      · cases hhandler
    · intro e s hnone hleft
      refine h.left _ hown.tagbody ?_ hleft
      rintro index origin rfl -
      simp at hnone

theorem ownTags_addTags (h : Pushed p k f frame stack) (activation : ℕ) (body : List Item) :
    ∃ own, addTags f activation body 1 k.tags = own ++ k.tags ∧ OwnTags k f activation own := by
  obtain ⟨own, heq, hown, hindex⟩ := addTags_eq f activation body 1 k.tags
  refine ⟨own, heq, fun tag htag => (hown tag htag).1, fun tag htag => (hown tag htag).2.1, hindex,
    fun tag htag hf => ?_⟩
  exact h.notMem (hf ▸ (h.ok.tagsOf tag htag).1)

theorem Pushed.leavingTags {own : List Tag} {s : Thread} (h : Pushed p k f frame stack)
    (hat : At p ((k.push f frame stack).addTags own) s) :
    Leaving p k f s ∧ (s.control.frames f).lastTag = k.tags := by
  have hok := h.ok.push h.notMem h.suffix h.depth.le h.tags
  have hleaving := (h.leaving (s := { s with lastTag := k.tags }) ⟨hok, hat.chained, hat.frames,
    rfl, hat.stack, hat.exact, hat.history⟩).1
  exact ⟨⟨h.ok, hleaving.live, hleaving.chained, hleaving.frames, hleaving.saved, hleaving.stack,
    hleaving.exact, hleaving.history⟩, hleaving.saved⟩

theorem keeps_clTagbody (hclean : p.Clean) (hev : Sound p ev) (n : ℕ) (body : List Item) (env : ℕ) :
    Keeps p (clTagbody ev n body env) := by
  refine (silent_newEnvironment env).keeps.bind fun ext => ?_
  intro k
  refine triple_forall Thread.bindingStack fun stack => ?_
  refine triple_bind triple_getTagbody fun r => ?_
  obtain ⟨f, activation⟩ := r
  refine triple_forall (fun s => (s.control.frames f).core) fun frame => ?_
  refine Triple.weaken_pre (S := fun s => (Pushed p k f frame stack ∧
    frame.activation = activation ∧ frame.type = .tagbody) ∧ At p (k.push f frame stack) s) ?_ ?_
  · refine triple_bind (triple_get (Q := fun s₀ s => (Pushed p k f frame stack ∧
      frame.activation = activation ∧ frame.type = .tagbody ∧ s₀.lastTag = k.tags) ∧
      At p (k.push f frame stack) s) fun s h _ => ⟨⟨h.1.1, h.1.2.1, h.1.2.2, h.2.tags⟩, h.2⟩)
      fun s₀ => ?_
    refine Triple.of_imp (fun _ h => h.1) (Triple.grows (grows_setLastTag.bind fun _ =>
      (silent_changeEnvironment ext _).grows.bind fun _ =>
        (grows_tagbodyLoop hev f activation ext _ n body).bind fun _ =>
          grows_get.bind fun s₁ => grows_setLastTag.bind fun _ =>
            (grows_changeControl _ _).bind fun _ => (grows_changeControl _ _).bind fun _ =>
              silent_clearValues.grows.bind fun _ => grows_pure _)) ?_
    rintro ⟨hpushed, hactivation, htype, hlastTag⟩
    obtain ⟨own, heq, hown⟩ := ownTags_addTags hpushed activation body
    rw [hlastTag, heq]
    refine triple_bind (Q := fun _ => At p ((k.push f frame stack).addTags own))
      (triple_modify (fun s => List.suffix_refl s.trace) fun s h _ => ?_) fun _ => ?_
    · obtain ⟨-, -, hchained, hframes, -, hstack, hexact, hhistory⟩ := h
      exact ⟨hpushed.okTags htype hactivation hown, hchained, hframes, rfl, hstack, hexact,
        hhistory⟩
    refine triple_bind ((silent_changeEnvironment ext _).triple fun _ _ => At.same) fun _ => ?_
    refine triple_bind (keeps_tagbodyLoop hclean hev hpushed htype hactivation hown ext n body) fun
      _ => ?_
    refine triple_bind (triple_get (Q := fun s₁ s => (s₁.control.frames f).lastTag = k.tags ∧
      Leaving p k f s) fun s h _ => (hpushed.leavingTags h).symm) fun s₁ => ?_
    refine triple_bind (Q := fun _ s => Leaving p k f s ∧ s.lastTag = k.tags)
      (triple_modify (fun s => List.suffix_refl s.trace) fun s h _ => ?_) fun _ => ?_
    · obtain ⟨htags, h⟩ := h
      exact ⟨⟨h.ok, h.live, h.chained, h.frames, h.saved, h.stack, h.exact, h.history⟩, htags⟩
    refine triple_bind triple_restoreLastControlFrame fun _ => ?_
    refine triple_bind triple_releaseFrame fun _ => ?_
    exact triple_bind (silent_clearValues.triple fun _ _ => At.same) fun _ =>
      triple_pure fun _ h _ => h
  · rintro s ⟨⟨⟨hpushed, hat⟩, hactivation, htype⟩, rfl⟩
    exact ⟨⟨hpushed, hactivation, htype⟩, hat⟩

theorem keeps_clLambda (lambdaList : List Parameter) (specials : List Symbol) (body : List Form)
    (env : ℕ) : Keeps p (clLambda lambdaList specials body env) :=
  ((compositional_keeps p).newClosure lambdaList specials body env).bind fun _ =>
    (silent_makeObject _).keeps

/-- **Every evaluation keeps its context**, or leaves it to a frame of it. -/
theorem sound_eval (hclean : p.Clean) (n : ℕ) : Sound p (eval n) := by
  induction n with
  | zero => exact fun _ _ => keeps_timeout
  | succ n ih =>
    intro form env
    refine silent_clearValues.keeps.bind fun _ => ?_
    cases form with
    | const v => exact keeps_pure v
    | var name => exact (compositional_keeps p).evalSymbol name env
    | setq name form => exact (compositional_keeps p).clSetq ih name form env
    | progn body => exact (compositional_keeps p).progn ih env body .nil
    | cond test consequent alternative =>
      exact (compositional_keeps p).clIf ih test consequent alternative env
    | «let» bindings specials body => exact keeps_clLet ih bindings specials body env
    | letStar bindings specials body => exact keeps_clLetStar ih bindings specials body env
    | lambda lambdaList specials body => exact keeps_clLambda lambdaList specials body env
    | call lambdaList specials body args =>
      exact ((compositional_keeps p).newClosure lambdaList specials body env).bind fun c =>
        (compositional_keeps p).evalCall ih c args env
    | funcall function args => exact (compositional_keeps p).clFuncall ih function args env
    | values args => exact (compositional_keeps p).clValues ih args env
    | block name body => exact keeps_clBlock ih name body env
    | returnFrom name result => exact keeps_clReturnFrom hclean ih n name result env
    | «catch» tag body => exact keeps_clCatch ih tag body env
    | throw tag result => exact keeps_clThrow hclean ih n tag result env
    | tagbody body => exact keeps_clTagbody hclean ih n body env
    | go name => exact keeps_clGo hclean ih n name env
    | unwindProtect form cleanupForms => exact keeps_clUnwindProtect ih form cleanupForms env

/-! ## Runs -/

/-- The evaluation of a form in the null environment, by a thread that has made no frames. -/
def run (specialVariable : Symbol → Bool) (symbolValue : Symbol → Option Value) (n : ℕ)
    (form : Form) : Except Exit Value × Thread :=
  eval n form 0 (Thread.new specialVariable symbolValue)

def Context.new : Context where
  frame := fun _ => .clear
  chain := []
  tags := []
  stack := []

theorem at_new (p : Policy) (specialVariable : Symbol → Bool)
    (symbolValue : Symbol → Option Value) :
    At p .new (Thread.new specialVariable symbolValue) where
  ok := by
    refine ⟨fun f hf => absurd hf List.not_mem_nil, fun tag h => absurd h List.not_mem_nil, ?_⟩
    intro before f after h
    simp [Context.new] at h
  chained := ⟨rfl, List.nodup_nil, fun f hf => absurd hf List.not_mem_nil⟩
  frames f hf := absurd hf List.not_mem_nil
  tags := rfl
  stack := List.suffix_refl _
  exact _ := rfl
  history := ⟨fun _ m hm => absurd hm List.not_mem_nil, fun _ m hm => absurd hm List.not_mem_nil⟩

/-- A run does not leave by a jump, or where a frame of the chain is taken from the pool. -/
def Exit.Final (p : Policy) : Exit → Prop
  | .jump .. | .int3 => False
  | .error e => p.Lexical → ¬ e.Lost
  | _ => True

/-- **What a policy gives for a whole run.** -/
theorem run_spec {p : Policy} (hclean : p.Clean) {specialVariable : Symbol → Bool}
    {symbolValue : Symbol → Option Value} {n : ℕ} {form : Form}
    (hmeets : ∀ m ∈ (run specialVariable symbolValue n form).2.trace, p.meets m) :
    (∀ e, (run specialVariable symbolValue n form).1 = .error e → e.Final p) ∧
      History p (run specialVariable symbolValue n form).2.trace := by
  have hpost := (sound_eval hclean n form 0 .new (Thread.new specialVariable symbolValue)).2
    (at_new p specialVariable symbolValue) hmeets
  change Post _ _ (run specialVariable symbolValue n form) at hpost
  generalize run specialVariable symbolValue n form = r at hpost ⊢
  obtain ⟨result, s⟩ := r
  cases result with
  | ok v => exact ⟨nofun, At.history hpost⟩
  | error e =>
    suffices e.Final p ∧ History p s.trace by
      refine ⟨?_, this.2⟩
      rintro e' ⟨⟩
      exact this.1
    cases e with
    | jump f index origin =>
      obtain ⟨before, after, hchain, -⟩ := hpost
      simp [Context.new] at hchain
    | int3 => exact hpost.elim
    | error e => exact ⟨hpost.2, hpost.1⟩
    | undefined => exact ⟨trivial, hpost⟩
    | timeout => exact ⟨trivial, hpost⟩

end Xcl.Interpreter
