import Xcl.SpecialBinding.Model

/-!
# Local exits unwind special bindings

* `Agree`: the saved depths and the recorded entries of the enclosing blocks;
* **`arrivals_right`**: in a run whose exits all unwind, the stack at every arrival is the stack at
  the entry.
-/

namespace Xcl.SpecialBinding

open Structured

variable {depth : ℕ → ℕ} {entry base : ℕ → List ℕ} {context rest : List Block}
variable {stack cur : List ℕ} {block target : Block}

/-! ## Blocks and their stacks -/

/-- The exits so far unwind. -/
def Clean (s : State) : Prop := ∀ u ∈ s.exits, u = true

def Right (s : State) : Prop := Clean s → ∀ a ∈ s.arrivals, a.1 = a.2

/-- Exits go to the block. -/
def Block.isTarget (b : Block) : Bool :=
  match b.kind with
  | .block _ => true
  | .tagbody _ => true
  | _ => false

/-- The stack inside of blocks that were entered with the stacks `base`. -/
def Agree (depth : ℕ → ℕ) (entry base : ℕ → List ℕ) : List Block → List ℕ → Prop
  | [], _ => True
  | b :: context, stack =>
    (base b.id <:+ stack ∧ (b.binds = false → stack = base b.id)) ∧
      (b.saves = true → depth b.id = (base b.id).length) ∧
      (b.isTarget = true → entry b.id = base b.id) ∧
      Agree depth entry base context (base b.id)

/-- What the second pass puts on the context: a block that binds saves the depth, and a `TAGBODY`
does not. -/
def Block.WellFormed (b : Block) : Prop :=
  (b.binds = true → b.saves = true) ∧ ∀ tags, b.kind = .tagbody tags → b.saves = false

theorem Agree.congr {depth' : ℕ → ℕ} {entry' base' : ℕ → List ℕ}
    (h : Agree depth entry base context stack)
    (hsame : ∀ b ∈ context, depth' b.id = depth b.id ∧ entry' b.id = entry b.id ∧
      base' b.id = base b.id) : Agree depth' entry' base' context stack := by
  induction context generalizing stack with
  | nil => trivial
  | cons b context ih =>
    obtain ⟨hstack, hdepth, hentry, hrest⟩ := h
    obtain ⟨hd, he, hb⟩ := hsame b (by simp)
    refine ⟨?_, ?_, ?_, ?_⟩
    · rw [hb]
      exact hstack
    · rw [hb, hd]
      exact hdepth
    · rw [hb, he]
      exact hentry
    · rw [hb]
      exact ih hrest fun c hc => hsame c (by simp [hc])

/-! ## Unwinding -/

theorem unbindTo_eq {l : List ℕ} (h : l <:+ stack) : unbindTo l.length stack = l := by
  obtain ⟨front, rfl⟩ := h
  simp [unbindTo]

/-- The stack after the calls of `p2-go`. -/
def restoreAll (depth : ℕ → ℕ) : List Block → List ℕ → List ℕ
  | [], cur => cur
  | b :: blocks, cur =>
    match b.kind with
    | .tagbody _ => restoreAll depth blocks cur
    | _ => restoreAll depth blocks (if b.saves then unbindTo (depth b.id) cur else cur)

theorem base_eq_of_not_saves {blocks : List Block} (hwf : ∀ b ∈ blocks, b.WellFormed)
    (hsaves : ∀ b ∈ blocks, b.saves = false) (htarget : target.binds = false)
    (h : Agree depth entry base (blocks ++ target :: rest) stack) : stack = base target.id := by
  induction blocks generalizing stack with
  | nil => exact h.1.2 htarget
  | cons b blocks ih =>
    have hbinds : b.binds = false := by
      rw [← Bool.not_eq_true]
      intro hb
      have := (hwf b (by simp)).1 hb
      rw [hsaves b (by simp)] at this
      cases this
    rw [h.1.2 hbinds]
    exact ih (fun c hc => hwf c (by simp [hc])) (fun c hc => hsaves c (by simp [hc])) h.2.2.2

theorem restoreAll_of_not_saves {blocks : List Block} (hsaves : ∀ b ∈ blocks, b.saves = false) :
    restoreAll depth (visibleBlocks blocks) cur = cur := by
  induction blocks generalizing cur with
  | nil => rfl
  | cons b blocks ih =>
    have ih := fun cur => @ih cur fun c hc => hsaves c (by simp [hc])
    have hb := hsaves b (by simp)
    unfold visibleBlocks at ih ⊢
    by_cases hvisible : b.kind = .multipleValueBind
    · rw [List.filter_cons_of_neg (by simp [hvisible])]
      exact ih cur
    · rw [List.filter_cons_of_pos (by simp [hvisible]), restoreAll]
      simp only [hb, Bool.false_eq_true, if_false]
      split <;> exact ih cur

theorem restoreAll_cons (hwf : block.WellFormed) (blocks : List Block) :
    restoreAll depth (visibleBlocks (block :: blocks)) cur =
      restoreAll depth (visibleBlocks blocks)
        (if block.saves = true ∧ block.kind ≠ .multipleValueBind then unbindTo (depth block.id) cur
          else cur) := by
  unfold visibleBlocks
  by_cases hvisible : block.kind = .multipleValueBind
  · rw [List.filter_cons_of_neg (by simp [hvisible]), if_neg (by simp [hvisible])]
  · rw [List.filter_cons_of_pos (by simp [hvisible]), restoreAll]
    split
    · rename_i tags htags
      rw [hwf.2 tags htags, if_neg (by simp)]
    · simp [hvisible]

/-- The calls of a `GO` unwind to the stack of the target when the outermost block that saves the
depth is visible. -/
theorem restoreAll_eq {blocks : List Block} (hwf : ∀ b ∈ blocks, b.WellFormed)
    (htarget : target.binds = false)
    (hlast : ∃ b ∈ (blocks.filter (·.saves)).getLast?, b.kind ≠ .multipleValueBind)
    (h : Agree depth entry base (blocks ++ target :: rest) stack) (hcur : stack <:+ cur) :
    restoreAll depth (visibleBlocks blocks) cur = base target.id := by
  induction blocks generalizing stack cur with
  | nil => simp at hlast
  | cons b blocks ih =>
    obtain ⟨⟨hsuffix, -⟩, hdepth, -, hrest⟩ := h
    have hwf' : ∀ c ∈ blocks, c.WellFormed := fun c hc => hwf c (by simp [hc])
    have hsuffix : base b.id <:+ cur := hsuffix.trans hcur
    rw [restoreAll_cons (hwf b (by simp))]
    by_cases hnone : ∀ c ∈ blocks, c.saves = false
    · -- `b` is the outermost block that saves the depth
      have hfilter : blocks.filter (·.saves) = [] := by
        rw [List.filter_eq_nil_iff]
        intro c hc
        simp [hnone c hc]
      have hb : b.saves = true := by
        by_contra hb
        rw [List.filter_cons_of_neg hb, hfilter] at hlast
        simp at hlast
      rw [List.filter_cons_of_pos hb, hfilter] at hlast
      obtain ⟨c, hc, hkind⟩ := hlast
      obtain rfl : b = c := by simpa using hc
      rw [if_pos ⟨hb, hkind⟩, restoreAll_of_not_saves hnone, hdepth hb, unbindTo_eq hsuffix]
      exact base_eq_of_not_saves hwf' hnone htarget hrest
    · have hne : blocks.filter (·.saves) ≠ [] := by
        intro hfilter
        rw [List.filter_eq_nil_iff] at hfilter
        exact hnone fun c hc => by simpa using hfilter c hc
      have hlast' : ∃ b ∈ (blocks.filter (·.saves)).getLast?, b.kind ≠ .multipleValueBind := by
        by_cases hb : b.saves = true
        · rw [List.filter_cons_of_pos hb, List.getLast?_cons_of_ne_nil hne] at hlast
          exact hlast
        · rwa [List.filter_cons_of_neg hb] at hlast
      apply ih hwf' hlast' hrest
      split
      · rename_i hb
        rw [hdepth hb.1, unbindTo_eq hsuffix]
      · exact hsuffix

theorem context_eq (h : target ∈ context) :
    ∃ rest, context = path target context ++ target :: rest := by
  unfold path
  induction context with
  | nil => cases h
  | cons b context ih =>
    by_cases hb : b = target
    · exact ⟨context, by simp [hb]⟩
    · obtain ⟨rest, hrest⟩ := ih ((List.mem_cons.mp h).resolve_left (Ne.symm hb))
      refine ⟨rest, ?_⟩
      rw [List.takeWhile_cons_of_pos (by simpa using hb), List.cons_append, ← hrest]

theorem takeWhile_visibleBlocks (hvisible : target.kind ≠ .multipleValueBind) :
    (visibleBlocks context).takeWhile (· ≠ target) = visibleBlocks (path target context) := by
  unfold visibleBlocks path
  induction context with
  | nil => rfl
  | cons b context ih =>
    by_cases hb : b = target
    · subst hb
      simp [hvisible]
    · by_cases hkind : b.kind = .multipleValueBind
      · simp [hb, hkind]
        simpa using ih
      · simp [hb, hkind]
        simpa using ih

theorem restoreAll_eq_of_goUnwinds (hwf : ∀ b ∈ context, b.WellFormed) (hmem : target ∈ context)
    (htarget : target.binds = false) (hvisible : target.kind ≠ .multipleValueBind)
    (hgo : goUnwinds target context = true) (h : Agree depth entry base context stack) :
    restoreAll depth ((visibleBlocks context).takeWhile (· ≠ target)) stack = base target.id := by
  obtain ⟨rest, hrest⟩ := context_eq hmem
  have hwf' : ∀ b ∈ path target context, b.WellFormed := fun b hb =>
    hwf b (by rw [hrest]; simp [hb])
  rw [hrest] at h
  rw [takeWhile_visibleBlocks hvisible]
  unfold goUnwinds at hgo
  cases hlast : ((path target context).filter (·.saves)).getLast? with
  | none =>
    rw [List.getLast?_eq_none_iff, List.filter_eq_nil_iff] at hlast
    have hsaves : ∀ b ∈ path target context, b.saves = false := fun b hb => by
      simpa using hlast b hb
    rw [restoreAll_of_not_saves hsaves]
    exact base_eq_of_not_saves hwf' hsaves htarget h
  | some b =>
    rw [hlast] at hgo
    exact restoreAll_eq hwf' htarget ⟨b, hlast, by simpa using hgo⟩ h (List.suffix_refl _)

theorem Agree.suffix (hmem : target ∈ context) (h : Agree depth entry base context stack) :
    base target.id <:+ stack := by
  induction context generalizing stack with
  | nil => cases hmem
  | cons b context ih =>
    rcases List.mem_cons.mp hmem with rfl | hmem
    · exact h.1.1
    · exact (ih hmem h.2.2.2).trans h.1.1

theorem stack_eq_of_returnUnwinds (hmem : target ∈ context) (htarget : target.binds = false)
    (hreturn : returnUnwinds target context = true) (hsaves : target.saves = false)
    (h : Agree depth entry base context stack) : stack = base target.id := by
  obtain ⟨rest, hrest⟩ := context_eq hmem
  rw [returnUnwinds, hsaves, Bool.false_or, List.all_eq_true] at hreturn
  rw [hrest] at h
  clear hrest hmem
  generalize path target context = blocks at h hreturn
  induction blocks generalizing stack with
  | nil => exact h.1.2 htarget
  | cons b blocks ih =>
    rw [h.1.2 (by simpa using hreturn b (by simp))]
    exact ih h.2.2.2 fun c hc => hreturn c (by simp [hc])

/-! ## Assertions -/

def At (context : List Block) (base : ℕ → List ℕ) (stack : List ℕ) (s : State) : Prop :=
  Clean s → s.stack = stack ∧ Agree s.depth s.entry base context stack

/-- The stack inside of the blocks of the context, which may have bound variables. -/
def Inside (context : List Block) (base : ℕ → List ℕ) (s : State) : Prop :=
  ∃ stack, At context base stack s

/-- The stack at a jump: that of the `TAGBODY`, or one that the `BLOCK` unwinds. -/
def Reaches (base : ℕ → List ℕ) (context : List Block) (stack : List ℕ) : Label → Prop
  | .tag id name => ∃ b ∈ context, b.id = id ∧
      (∃ tags, b.kind = .tagbody tags ∧ name ∈ tags) ∧ stack = base id
  | .exit id => ∃ b ∈ context, b.id = id ∧ (∃ name, b.kind = .block name) ∧
      base id <:+ stack ∧ (b.saves = false → stack = base id)

def Exit (context : List Block) (base : ℕ → List ℕ) (l : Label) (s : State) : Prop :=
  Clean s → (∃ stack, Agree s.depth s.entry base context stack) ∧ Reaches base context s.stack l

/-- The context of code with blocks from `n` on. -/
def ContextOk (n : ℕ) (context : List Block) : Prop :=
  ∀ b ∈ context, b.id < n ∧ b.WellFormed

theorem Clean.of_cons {s : State} {u : Bool} (h : Clean { s with exits := u :: s.exits }) :
    Clean s ∧ u = true :=
  ⟨fun v hv => h v (List.mem_cons_of_mem u hv), h u List.mem_cons_self⟩

theorem triple_emitWhen {b : Bool} {i : Instr} {P N : State → Prop} {J : Label → State → Prop}
    (htrue : b = true → ∀ s, Right s → P s → Right (exec i s) ∧ N (exec i s))
    (hfalse : b = false → ∀ s, P s → N s) :
    Triple machine Right P (emitWhen b i) N J := by
  unfold emitWhen
  cases b with
  | true => exact triple_instr (htrue rfl)
  | false => exact triple_skip.mono (fun _ h => h) (hfalse rfl) (fun _ _ h => h)

theorem triple_enter (block : Block) (hctx : ContextOk block.id context)
    (htarget : block.isTarget = false) {J : Label → State → Prop} :
    Triple machine Right (At context base stack) (emitWhen block.saves (.save block.id))
      (At (block :: context) (Function.update base block.id stack) stack) J := by
  have hne : ∀ b ∈ context, b.id ≠ block.id := fun b hb => (hctx b hb).1.ne
  have hagree : ∀ {depth depth' : ℕ → ℕ} {entry : ℕ → List ℕ},
      Agree depth entry base context stack →
      (∀ b ∈ context, depth' b.id = depth b.id) →
      (block.saves = true → depth' block.id = stack.length) →
      Agree depth' entry (Function.update base block.id stack) (block :: context) stack := by
    intro depth depth' entry h hsame hdepth
    refine ⟨?_, ?_, ?_, ?_⟩
    · simp
    · simpa using hdepth
    · rw [htarget]
      rintro ⟨⟩
    · rw [Function.update_self]
      exact h.congr fun b hb => ⟨hsame b hb, rfl, Function.update_of_ne (hne b hb) _ _⟩
  apply triple_emitWhen
  · intro hsaves s hright hat
    refine ⟨hright, fun hclean => ?_⟩
    obtain ⟨hstack, h⟩ := hat hclean
    refine ⟨hstack, hagree h (fun b hb => Function.update_of_ne (hne b hb) _ _) fun _ => ?_⟩
    show Function.update s.depth block.id s.stack.length block.id = _
    rw [Function.update_self, hstack]
  · intro hsaves s hat hclean
    obtain ⟨hstack, h⟩ := hat hclean
    refine ⟨hstack, hagree h (fun b hb => rfl) fun hs => ?_⟩
    rw [hsaves] at hs
    cases hs

theorem triple_leave (block : Block) (hctx : ContextOk block.id context) (hwf : block.WellFormed)
    {J : Label → State → Prop} :
    Triple machine Right (Inside (block :: context) (Function.update base block.id stack))
      (emitWhen block.saves (.restore block.id)) (At context base stack) J := by
  have hne : ∀ b ∈ context, b.id ≠ block.id := fun b hb => (hctx b hb).1.ne
  have hagree : ∀ {depth : ℕ → ℕ} {entry : ℕ → List ℕ},
      Agree depth entry (Function.update base block.id stack) context
        (Function.update base block.id stack block.id) →
      Agree depth entry base context stack := by
    intro depth entry h
    rw [Function.update_self] at h
    exact h.congr fun b hb => ⟨rfl, rfl, (Function.update_of_ne (hne b hb) _ _).symm⟩
  apply triple_emitWhen
  · rintro hsaves s hright ⟨inner, hat⟩
    refine ⟨hright, fun hclean => ?_⟩
    obtain ⟨hstack, ⟨hsuffix, -⟩, hdepth, -, hrest⟩ := hat hclean
    refine ⟨?_, hagree hrest⟩
    show unbindTo (s.depth block.id) s.stack = stack
    rw [hdepth hsaves, hstack, unbindTo_eq hsuffix, Function.update_self]
  · rintro hsaves s ⟨inner, hat⟩ hclean
    obtain ⟨hstack, ⟨-, hbinds⟩, -, -, hrest⟩ := hat hclean
    refine ⟨?_, hagree hrest⟩
    rw [hstack, hbinds, Function.update_self]
    rw [← Bool.not_eq_true]
    intro hb
    rw [hwf.1 hb] at hsaves
    cases hsaves

theorem inside_append (hbinds : block.binds = true) {s s' : State} (more : List ℕ)
    (hstack : s'.stack = more ++ s.stack) (hdepth : s'.depth = s.depth)
    (hentry : s'.entry = s.entry) (hexits : s'.exits = s.exits)
    (h : Inside (block :: context) base s) : Inside (block :: context) base s' := by
  obtain ⟨stack, hat⟩ := h
  refine ⟨more ++ stack, fun hclean => ?_⟩
  unfold Clean at hclean
  rw [hexits] at hclean
  obtain ⟨hs, ⟨hsuffix, -⟩, h⟩ := hat hclean
  rw [hstack, hs, hdepth, hentry]
  refine ⟨rfl, ⟨hsuffix.trans (List.suffix_append _ _), fun hb => ?_⟩, h⟩
  rw [hbinds] at hb
  cases hb

theorem triple_bind (special : Bool) (hbinds : special = true → block.binds = true)
    {J : Label → State → Prop} :
    Triple machine Right (Inside (block :: context) base) (emitWhen special .bind)
      (Inside (block :: context) base) J := by
  apply triple_emitWhen
  · intro hs s hright h
    exact ⟨hright, inside_append (hbinds hs) [s.inputs s.time] rfl rfl rfl rfl h⟩
  · exact fun _ _ h => h

theorem triple_emitBinds (specials : List Bool)
    (hbinds : specials.contains true = true → block.binds = true) {J : Label → State → Prop} :
    Triple machine Right (Inside (block :: context) base) (emitBinds specials)
      (Inside (block :: context) base) J := by
  induction specials with
  | nil => exact triple_skip
  | cons special specials ih =>
    refine triple_seq (triple_bind special fun hs => hbinds ?_) (ih fun hs => hbinds ?_)
    · simp [hs]
    · simpa using Or.inr hs

theorem triple_bindVars (hbinds : block.binds = true) {J : Label → State → Prop} :
    Triple machine Right (Inside (block :: context) base) (.instr .bindVars)
      (Inside (block :: context) base) J :=
  triple_instr fun _ hright h => ⟨hright, inside_append hbinds _ rfl rfl rfl rfl h⟩

theorem Exit.pop (block : Block) (hctx : ContextOk block.id context) {l : Label} {s : State}
    (hother : ∀ id, l = .exit id → block.id = id → ∀ name, block.kind ≠ .block name)
    (hother' : ∀ id name, l = .tag id name → block.id = id →
      ∀ tags, block.kind = .tagbody tags → name ∉ tags)
    (h : Exit (block :: context) (Function.update base block.id stack) l s) :
    Exit context base l s := by
  have hne : ∀ b ∈ context, b.id ≠ block.id := fun b hb => (hctx b hb).1.ne
  intro hclean
  obtain ⟨⟨inner, hagree⟩, hreach⟩ := h hclean
  refine ⟨⟨_, hagree.2.2.2.congr fun b hb =>
    ⟨rfl, rfl, (Function.update_of_ne (hne b hb) _ _).symm⟩⟩, ?_⟩
  cases l with
  | exit id =>
    obtain ⟨b, hb, hid, ⟨name, hkind⟩, hsuffix, hsaves⟩ := hreach
    rcases List.mem_cons.mp hb with rfl | hb
    · exact absurd hkind (hother id rfl hid name)
    · rw [← hid, Function.update_of_ne (hne b hb)] at hsuffix hsaves
      exact ⟨b, hb, hid, ⟨name, hkind⟩, hid ▸ hsuffix, hid ▸ hsaves⟩
  | tag id name =>
    obtain ⟨b, hb, hid, ⟨tags, hkind, hname⟩, hstack⟩ := hreach
    rcases List.mem_cons.mp hb with rfl | hb
    · exact absurd hname (hother' id name rfl hid tags hkind)
    · rw [← hid, Function.update_of_ne (hne b hb)] at hstack
      exact ⟨b, hb, hid, ⟨tags, hkind, hname⟩, hid ▸ hstack⟩

theorem Exit.pop_of_not_isTarget (block : Block) (hctx : ContextOk block.id context)
    (htarget : block.isTarget = false) {l : Label} {s : State}
    (h : Exit (block :: context) (Function.update base block.id stack) l s) :
    Exit context base l s := by
  apply h.pop block hctx
  · intro _ _ _ name hkind
    simp [Block.isTarget, hkind] at htarget
  · intro _ _ _ _ tags hkind
    simp [Block.isTarget, hkind] at htarget

/-! ## Exits -/

theorem triple_emitRestores (blocks : List Block) {depth : ℕ → ℕ} {P : State → Prop}
    (hP : ∀ s stack, P s → P { s with stack := stack }) {J : Label → State → Prop} :
    Triple machine Right (fun s => P s ∧ (Clean s → s.depth = depth ∧ s.stack = stack))
      (emitRestores blocks)
      (fun s => P s ∧ (Clean s → s.depth = depth ∧ s.stack = restoreAll depth blocks stack)) J := by
  induction blocks generalizing stack with
  | nil => exact triple_skip
  | cons b blocks ih =>
    have hstep : Triple machine Right (fun s => P s ∧ (Clean s → s.depth = depth ∧ s.stack = stack))
        (.seq (emitWhen b.saves (.restore b.id)) (emitRestores blocks))
        (fun s => P s ∧ (Clean s → s.depth = depth ∧ s.stack =
          restoreAll depth blocks (if b.saves then unbindTo (depth b.id) stack else stack))) J := by
      refine triple_seq ?_ ih
      apply triple_emitWhen
      · rintro hsaves s hright ⟨hp, h⟩
        refine ⟨hright, hP s _ hp, fun hclean => ?_⟩
        obtain ⟨hdepth, hstack⟩ := h hclean
        refine ⟨hdepth, ?_⟩
        show unbindTo (s.depth b.id) s.stack = _
        rw [hdepth, hstack, if_pos hsaves]
      · rintro hsaves s ⟨hp, h⟩
        refine ⟨hp, fun hclean => ?_⟩
        rw [hsaves]
        exact h hclean
    cases hkind : b.kind with
    | tagbody tags =>
      simp only [emitRestores, restoreAll, hkind]
      exact ih
    | _ =>
      simp only [emitRestores, restoreAll, hkind]
      exact hstep

theorem right_exit {s : State} {u : Bool} (h : Right s) : Right (exec (.exit u) s) :=
  fun hclean => h (Clean.of_cons hclean).1

theorem triple_p2Go (hwf : ∀ b ∈ context, b.WellFormed) (tag : String) {N : State → Prop}
    (hN : ∀ s, At context base stack s → N s) :
    Triple machine Right (At context base stack) (p2Go tag context) N (Exit context base) := by
  unfold p2Go
  cases hfind : findVisibleTag tag context with
  | none => exact triple_skip.mono (fun _ h => h) hN (fun _ _ h => h)
  | some target =>
    have hmem : target ∈ context := List.mem_of_find?_eq_some hfind
    obtain ⟨tags, hkind, htag⟩ : ∃ tags, target.kind = .tagbody tags ∧ tag ∈ tags := by
      have h := List.find?_some hfind
      cases hkind : target.kind with
      | tagbody tags => exact ⟨tags, rfl, by simpa [hkind] using h⟩
      | _ => simp [hkind] at h
    have hbinds : target.binds = false := by simp [Block.binds, hkind]
    have hvisible : target.kind ≠ .multipleValueBind := by simp [hkind]
    -- the restores leave all but the stack
    have hrestores : ∀ depth, Triple machine Right
        (fun s => (Clean s → Agree s.depth s.entry base context stack) ∧
          (Clean s → s.depth = depth ∧ s.stack = stack))
        (emitRestores ((visibleBlocks context).takeWhile (· ≠ target)))
        (fun s => ∃ depth, (Clean s → Agree s.depth s.entry base context stack) ∧
          (Clean s → s.depth = depth ∧ s.stack =
            restoreAll depth ((visibleBlocks context).takeWhile (· ≠ target)) stack))
        (Exit context base) := fun depth =>
      (triple_emitRestores _ (fun _ _ h => h)).mono (fun _ h => h) (fun _ h => ⟨depth, h⟩)
        (fun _ _ h => h)
    refine triple_seq ((triple_exists hrestores).mono (fun s h => ⟨s.depth, ?_, ?_⟩)
      (fun _ h => h) (fun _ _ h => h))
      (triple_seq (M := Exit context base (.tag target.id tag)) ?_ ?_)
    · exact fun hclean => (h hclean).2
    · exact fun hclean => ⟨rfl, (h hclean).1⟩
    · refine triple_instr fun s hright ⟨depth, hagree, hstack⟩ => ⟨right_exit hright, ?_⟩
      intro hclean
      obtain ⟨hclean, hgo⟩ := Clean.of_cons hclean
      obtain ⟨rfl, hstack⟩ := hstack hclean
      refine ⟨⟨stack, hagree hclean⟩, target, hmem, rfl, ⟨tags, hkind, htag⟩, ?_⟩
      show s.stack = _
      rw [hstack, restoreAll_eq_of_goUnwinds hwf hmem hbinds hvisible hgo (hagree hclean)]
    · exact triple_jmp

theorem triple_p2ReturnFrom (name : String) {N : State → Prop}
    (hN : ∀ s, At context base stack s → N s) :
    Triple machine Right (At context base stack) (p2ReturnFrom name context) N
      (Exit context base) := by
  unfold p2ReturnFrom
  cases hfind : findVisibleBlock name context with
  | none => exact triple_skip.mono (fun _ h => h) hN (fun _ _ h => h)
  | some target =>
    have hmem : target ∈ context := List.mem_of_mem_filter (List.mem_of_find?_eq_some hfind)
    have hkind : target.kind = .block name := by simpa using List.find?_some hfind
    have hbinds : target.binds = false := by simp [Block.binds, hkind]
    refine triple_seq (M := Exit context base (.exit target.id)) ?_ triple_jmp
    refine triple_instr fun s hright h => ⟨right_exit hright, ?_⟩
    intro hclean
    obtain ⟨hclean, hreturn⟩ := Clean.of_cons hclean
    obtain ⟨hstack, hagree⟩ := h hclean
    refine ⟨⟨stack, hagree⟩, target, hmem, rfl, ⟨name, hkind⟩, ?_, fun hsaves => ?_⟩
    · show base target.id <:+ s.stack
      rw [hstack]
      exact hagree.suffix hmem
    · show s.stack = base target.id
      rw [hstack, stack_eq_of_returnUnwinds hmem hbinds hreturn hsaves hagree]

/-! ## Numbers of blocks -/

mutual

/-- The blocks of the node are numbered from `n` on, and inner blocks higher than outer ones. -/
def Node.Above : Node → ℕ → Prop
  | .atom, _ => True
  | .seq first second, n => first.Above n ∧ second.Above n
  | .cond test first second, n => test.Above n ∧ first.Above n ∧ second.Above n
  | .letNode id _ vars body, n => n ≤ id ∧ vars.Above (id + 1) ∧ body.Above (id + 1)
  | .multipleValueBind id _ values body, n =>
    n ≤ id ∧ values.Above (id + 1) ∧ body.Above (id + 1)
  | .progv id symbols values body, n =>
    n ≤ id ∧ symbols.Above (id + 1) ∧ values.Above (id + 1) ∧ body.Above (id + 1)
  | .block id _ _ body, n => n ≤ id ∧ body.Above (id + 1)
  | .tagbody id items, n => n ≤ id ∧ items.Above (id + 1)
  | .go _, _ => True
  | .returnFrom _ result, n => result.Above n

def NodeBindings.Above : NodeBindings → ℕ → Prop
  | .nil, _ => True
  | .cons _ initform rest, n => initform.Above n ∧ rest.Above n

def NodeItems.Above : NodeItems → ℕ → Prop
  | .nil, _ => True
  | .tag _ rest, n => rest.Above n
  | .form node rest, n => node.Above n ∧ rest.Above n

end

/-- The instruction does not save to a block below `n`. -/
def SavesFrom (n : ℕ) (i : Instr) : Prop := ∀ id, i = .save id → n ≤ id

theorem allInstr_emitWhen {n : ℕ} {b : Bool} {i : Instr} (h : SavesFrom n i) :
    (emitWhen b i).AllInstr (SavesFrom n) := by
  unfold emitWhen
  split
  · exact h
  · trivial

theorem savesFrom_save {n id : ℕ} (h : n ≤ id) : SavesFrom n (.save id) := by
  rintro _ ⟨⟩
  exact h

theorem savesFrom_of_ne {n : ℕ} {i : Instr} (h : ∀ id, i ≠ .save id) : SavesFrom n i :=
  fun id hi => absurd hi (h id)

theorem allInstr_emitBinds {n : ℕ} (specials : List Bool) :
    (emitBinds specials).AllInstr (SavesFrom n) := by
  induction specials with
  | nil => trivial
  | cons special specials ih => exact ⟨allInstr_emitWhen (savesFrom_of_ne (by simp)), ih⟩

theorem allInstr_emitRestores {n : ℕ} (blocks : List Block) :
    (emitRestores blocks).AllInstr (SavesFrom n) := by
  induction blocks with
  | nil => trivial
  | cons b blocks ih =>
    rw [emitRestores]
    split
    · exact ih
    · exact ⟨allInstr_emitWhen (savesFrom_of_ne (by simp)), ih⟩

theorem allInstr_p2Go {n : ℕ} (tag : String) (context : List Block) :
    (p2Go tag context).AllInstr (SavesFrom n) := by
  unfold p2Go
  split
  · trivial
  · exact ⟨allInstr_emitRestores _, savesFrom_of_ne (by simp), trivial⟩

theorem allInstr_p2ReturnFrom {n : ℕ} (name : String) (context : List Block) :
    (p2ReturnFrom name context).AllInstr (SavesFrom n) := by
  unfold p2ReturnFrom
  split
  · trivial
  · exact ⟨savesFrom_of_ne (by simp), trivial⟩

mutual

theorem allInstr_p2 {n : ℕ} : ∀ (node : Node) (context : List Block) {k : ℕ}, node.Above k →
    n ≤ k → (p2 node context).AllInstr (SavesFrom n)
  | .atom, _, _, _, _ => trivial
  | .seq first second, context, _, h, hk =>
    ⟨allInstr_p2 first context h.1 hk, allInstr_p2 second context h.2 hk⟩
  | .cond test first second, context, _, h, hk =>
    ⟨allInstr_p2 test context h.1 hk, allInstr_p2 first context h.2.1 hk,
      allInstr_p2 second context h.2.2 hk⟩
  | .letNode id star vars body, context, k, ⟨hid, hvars, hbody⟩, hk => by
    have hn : n ≤ id := hk.trans hid
    refine ⟨allInstr_emitWhen (savesFrom_save hn), ?_, allInstr_p2 body _ hbody (by omega),
      allInstr_emitWhen (savesFrom_of_ne (by simp))⟩
    split
    · exact allInstr_p2LetStarVars vars _ hvars (by omega)
    · exact ⟨allInstr_p2LetVars vars _ hvars (by omega), allInstr_emitBinds _⟩
  | .multipleValueBind id specials values body, context, k, ⟨hid, hvalues, hbody⟩, hk =>
    ⟨allInstr_emitWhen (savesFrom_save (hk.trans hid)), allInstr_p2 values _ hvalues (by omega),
      allInstr_emitBinds _, allInstr_p2 body _ hbody (by omega),
      allInstr_emitWhen (savesFrom_of_ne (by simp))⟩
  | .progv id symbols values body, context, k, ⟨hid, hsymbols, hvalues, hbody⟩, hk =>
    ⟨savesFrom_save (hk.trans hid),
      ⟨allInstr_p2 symbols _ hsymbols (by omega), allInstr_p2 values _ hvalues (by omega)⟩,
      savesFrom_of_ne (by simp), allInstr_p2 body _ hbody (by omega), savesFrom_of_ne (by simp)⟩
  | .block id name saves body, context, k, ⟨hid, hbody⟩, hk =>
    ⟨savesFrom_of_ne (by simp), allInstr_emitWhen (savesFrom_save (hk.trans hid)),
      allInstr_p2 body _ hbody (by omega), allInstr_emitWhen (savesFrom_of_ne (by simp)),
      savesFrom_of_ne (by simp)⟩
  | .tagbody id items, context, k, ⟨hid, hitems⟩, hk =>
    ⟨savesFrom_of_ne (by simp), allInstr_p2Items id items _ hitems (by omega)⟩
  | .go tag, context, _, _, _ => allInstr_p2Go tag context
  | .returnFrom name result, context, _, h, hk =>
    ⟨allInstr_p2 result context h hk, allInstr_p2ReturnFrom name context⟩

theorem allInstr_p2LetVars {n : ℕ} : ∀ (vars : NodeBindings) (context : List Block) {k : ℕ},
    vars.Above k → n ≤ k → (p2LetVars vars context).AllInstr (SavesFrom n)
  | .nil, _, _, _, _ => trivial
  | .cons _ initform rest, context, _, h, hk =>
    ⟨allInstr_p2 initform context h.1 hk, allInstr_p2LetVars rest context h.2 hk⟩

theorem allInstr_p2LetStarVars {n : ℕ} : ∀ (vars : NodeBindings) (context : List Block) {k : ℕ},
    vars.Above k → n ≤ k → (p2LetStarVars vars context).AllInstr (SavesFrom n)
  | .nil, _, _, _, _ => trivial
  | .cons _ initform rest, context, _, h, hk =>
    ⟨allInstr_p2 initform context h.1 hk, allInstr_emitWhen (savesFrom_of_ne (by simp)),
      allInstr_p2LetStarVars rest context h.2 hk⟩

theorem allInstr_p2Items {n : ℕ} : ∀ (id : ℕ) (items : NodeItems) (context : List Block) {k : ℕ},
    items.Above k → n ≤ k → (p2Items id items context).AllInstr (SavesFrom n)
  | _, .nil, _, _, _, _ => trivial
  | id, .tag _ rest, context, _, h, hk =>
    ⟨savesFrom_of_ne (by simp), allInstr_p2Items id rest context h hk⟩
  | id, .form node rest, context, _, h, hk =>
    ⟨allInstr_p2 node context h.1 hk, allInstr_p2Items id rest context h.2 hk⟩

end

/-! ## Targets -/

/-- The stack of the context, and the record of the entry of a target. -/
def Entered (id : ℕ) (context : List Block) (base : ℕ → List ℕ) (stack : List ℕ) (s : State) :
    Prop :=
  Clean s → (s.stack = stack ∧ Agree s.depth s.entry base context stack) ∧ s.entry id = stack

theorem triple_instr_enter {id : ℕ} (hctx : ContextOk id context) {J : Label → State → Prop} :
    Triple machine Right (At context base stack) (.instr (.enter id))
      (Entered id context base stack) J := by
  refine triple_instr fun s hright hat => ⟨hright, fun hclean => ?_⟩
  obtain ⟨hstack, h⟩ := hat hclean
  refine ⟨⟨hstack, h.congr fun b hb => ⟨rfl, ?_, rfl⟩⟩, ?_⟩
  · exact Function.update_of_ne (hctx b hb).1.ne _ _
  · show Function.update s.entry id s.stack id = stack
    rw [Function.update_self, hstack]

theorem triple_arrive {id : ℕ} {J : Label → State → Prop} :
    Triple machine Right (Entered id context base stack) (.instr (.arrive id))
      (At context base stack) J := by
  refine triple_instr fun s hright h => ⟨fun hclean a ha => ?_, fun hclean => (h hclean).1⟩
  rcases List.mem_cons.mp ha with rfl | ha
  · rw [(h hclean).2, (h hclean).1.1]
  · exact hright hclean a ha

/-- The end of a `BLOCK`, before its depth is restored. -/
def AtExit (block : Block) (context : List Block) (base : ℕ → List ℕ) (s : State) : Prop :=
  Clean s → (∃ stack, Agree s.depth s.entry base (block :: context) stack) ∧
    base block.id <:+ s.stack ∧ (block.saves = false → s.stack = base block.id)

theorem triple_label_exit (block : Block) {name : String} {body : Emitted}
    (hkind : block.kind = .block name) (hctx : ContextOk block.id context)
    (hbody : Triple machine Right
      (At (block :: context) (Function.update base block.id stack) stack) body
      (At (block :: context) (Function.update base block.id stack) stack)
      (Exit (block :: context) (Function.update base block.id stack))) :
    Triple machine Right (At (block :: context) (Function.update base block.id stack) stack)
      (.label body (.exit block.id))
      (AtExit block context (Function.update base block.id stack)) (Exit context base) := by
  apply triple_label
  refine hbody.mono (fun _ h => h) (fun s h hclean => ?_) (fun l s h => ?_)
  · obtain ⟨hstack, hagree⟩ := h hclean
    refine ⟨⟨stack, hagree⟩, ?_, fun _ => ?_⟩
    · rw [hstack]
      exact hagree.1.1
    · rw [hstack, Function.update_self]
  · split
    · rename_i hl
      subst hl
      intro hclean
      obtain ⟨hagree, b, hb, hid, -, hsuffix, hsaves⟩ := h hclean
      obtain rfl : b = block := by
        rcases List.mem_cons.mp hb with hb | hb
        · exact hb
        · exact absurd hid (hctx b hb).1.ne
      exact ⟨hagree, hsuffix, hsaves⟩
    · rename_i hl
      apply h.pop block hctx
      · rintro id rfl rfl
        exact absurd rfl hl
      · intro id name' _ _ tags htags
        rw [hkind] at htags
        cases htags

theorem triple_restore_exit (block : Block) (hctx : ContextOk block.id context)
    (htarget : block.isTarget = true) {J : Label → State → Prop} :
    Triple machine Right (AtExit block context (Function.update base block.id stack))
      (emitWhen block.saves (.restore block.id)) (Entered block.id context base stack) J := by
  have hne : ∀ b ∈ context, b.id ≠ block.id := fun b hb => (hctx b hb).1.ne
  have hpost : ∀ {s : State} {inner : List ℕ},
      Agree s.depth s.entry (Function.update base block.id stack) (block :: context) inner →
      Agree s.depth s.entry base context stack ∧ s.entry block.id = stack := by
    rintro s inner ⟨-, -, hentry, h⟩
    rw [Function.update_self] at h
    refine ⟨h.congr fun b hb => ⟨rfl, rfl, (Function.update_of_ne (hne b hb) _ _).symm⟩, ?_⟩
    rw [hentry htarget, Function.update_self]
  apply triple_emitWhen
  · intro hsaves s hright h
    refine ⟨hright, fun hclean => ?_⟩
    obtain ⟨⟨inner, hagree⟩, hsuffix, -⟩ := h hclean
    obtain ⟨hctx', hentry⟩ := hpost hagree
    refine ⟨⟨?_, hctx'⟩, hentry⟩
    show unbindTo (s.depth block.id) s.stack = stack
    rw [hagree.2.1 hsaves, unbindTo_eq hsuffix, Function.update_self]
  · intro hsaves s h hclean
    obtain ⟨⟨inner, hagree⟩, -, hstack⟩ := h hclean
    obtain ⟨hctx', hentry⟩ := hpost hagree
    exact ⟨⟨by rw [hstack hsaves, Function.update_self], hctx'⟩, hentry⟩

theorem triple_save_target (block : Block) (hctx : ContextOk block.id context)
    {J : Label → State → Prop} :
    Triple machine Right (Entered block.id context base stack)
      (emitWhen block.saves (.save block.id))
      (At (block :: context) (Function.update base block.id stack) stack) J := by
  have hne : ∀ b ∈ context, b.id ≠ block.id := fun b hb => (hctx b hb).1.ne
  apply triple_emitWhen
  · intro hsaves s hright h
    refine ⟨hright, fun hclean => ?_⟩
    obtain ⟨⟨hstack, hagree⟩, hentry⟩ := h hclean
    refine ⟨hstack, ⟨by simp, by simp⟩, fun _ => ?_, fun _ => ?_, ?_⟩
    · show Function.update s.depth block.id s.stack.length block.id = _
      rw [Function.update_self, Function.update_self, hstack]
    · rw [Function.update_self]
      exact hentry
    · rw [Function.update_self]
      exact hagree.congr fun b hb =>
        ⟨Function.update_of_ne (hne b hb) _ _, rfl, Function.update_of_ne (hne b hb) _ _⟩
  · intro hsaves s h hclean
    obtain ⟨⟨hstack, hagree⟩, hentry⟩ := h hclean
    refine ⟨hstack, ⟨by simp, by simp⟩, fun hs => ?_, fun _ => ?_, ?_⟩
    · rw [hsaves] at hs
      cases hs
    · rw [Function.update_self]
      exact hentry
    · rw [Function.update_self]
      exact hagree.congr fun b hb => ⟨rfl, rfl, Function.update_of_ne (hne b hb) _ _⟩

/-! ## All code -/

/-- The code keeps the stack, and its exits that unwind leave the stack of their targets. -/
def Keeps (context : List Block) (c : Emitted) : Prop :=
  ∀ base stack, Triple machine Right (At context base stack) c (At context base stack)
    (Exit context base)

/-- The same for code of a block that may have bound variables. -/
theorem Keeps.inside {c : Emitted} (h : Keeps context c) :
    Triple machine Right (Inside context base) c (Inside context base) (Exit context base) :=
  triple_exists fun stack => (h base stack).mono (fun _ h => h) (fun _ h => ⟨stack, h⟩)
    (fun _ _ h => h)

theorem ContextOk.push (block : Block) {n : ℕ} (hctx : ContextOk n context) (hid : n ≤ block.id)
    (hwf : block.WellFormed) : ContextOk (block.id + 1) (block :: context) := by
  intro b hb
  rcases List.mem_cons.mp hb with rfl | hb
  · exact ⟨by omega, hwf⟩
  · exact ⟨by have := (hctx b hb).1; omega, (hctx b hb).2⟩

theorem ContextOk.mono {n k : ℕ} (hctx : ContextOk n context) (h : n ≤ k) :
    ContextOk k context :=
  fun b hb => ⟨(hctx b hb).1.trans_le h, (hctx b hb).2⟩

theorem keeps_block (block : Block) {first body : Emitted} (hctx : ContextOk block.id context)
    (hwf : block.WellFormed) (htarget : block.isTarget = false)
    (hfirst : ∀ base, Triple machine Right (Inside (block :: context) base) first
      (Inside (block :: context) base) (Exit (block :: context) base))
    (hbody : Keeps (block :: context) body) :
    Keeps context (.seq (emitWhen block.saves (.save block.id))
      (.seq first (.seq body (emitWhen block.saves (.restore block.id))))) := by
  intro base stack
  refine Triple.mono (J := Exit (block :: context) (Function.update base block.id stack)) ?_
    (fun _ h => h) (fun _ h => h) (fun _ _ h => h.pop_of_not_isTarget block hctx htarget)
  refine triple_seq ((triple_enter block hctx htarget).mono (fun _ h => h) (fun _ h => ⟨stack, h⟩)
    (fun _ _ h => h))
    (triple_seq (hfirst _) (triple_seq hbody.inside (triple_leave block hctx hwf)))

theorem labels_p2Items (id : ℕ) : ∀ (items : NodeItems) (context : List Block),
    (p2Items id items context).labels = items.tags.map (.tag id)
  | .nil, _ => rfl
  | .tag name rest, context => by
    rw [p2Items, Sections.labels, Sections.labels, labels_p2Items id rest]
    rfl
  | .form _ rest, context => by
    rw [p2Items, Sections.labels, labels_p2Items id rest]
    rfl

theorem keeps_tagbody {id : ℕ} {tags : List String} {items : Sections Instr Label}
    (hctx : ContextOk id context) (hlabels : items.labels = tags.map (.tag id))
    (hitems : ∀ base stack, items.All fun c =>
      Triple machine Right (At (⟨id, .tagbody tags, false⟩ :: context)
        (Function.update base id stack) stack) c
        (At (⟨id, .tagbody tags, false⟩ :: context) (Function.update base id stack) stack)
        (Exit (⟨id, .tagbody tags, false⟩ :: context) (Function.update base id stack))) :
    Keeps context (.seq (.instr (.enter id)) (.sections items)) := by
  intro base stack
  let block : Block := ⟨id, .tagbody tags, false⟩
  have hne : ∀ b ∈ context, b.id ≠ id := fun b hb => (hctx b hb).1.ne
  have henter : Triple machine Right (At context base stack) (.instr (.enter id))
      (At (block :: context) (Function.update base id stack) stack) (Exit context base) := by
    refine (triple_instr_enter hctx).mono (fun _ h => h) (fun s h hclean => ?_) (fun _ _ h => h)
    obtain ⟨⟨hstack, hagree⟩, hentry⟩ := h hclean
    refine ⟨hstack, ⟨by simp [block], by simp [block]⟩, by simp [block], fun _ => ?_, ?_⟩
    · simp [block, hentry]
    · simp only [block, Function.update_self]
      exact hagree.congr fun b hb => ⟨rfl, rfl, Function.update_of_ne (hne b hb) _ _⟩
  have hsections : Triple machine Right
      (At (block :: context) (Function.update base id stack) stack) (.sections items)
      (At (block :: context) (Function.update base id stack) stack) (Exit context base) := by
    apply triple_sections
    refine (hitems base stack).mono fun c hc => hc.mono (fun _ h => h) (fun _ h => h) ?_
    intro l s h
    split
    · -- a tag of this `TAGBODY`
      rename_i hl
      rw [hlabels, List.mem_map] at hl
      obtain ⟨name, -, rfl⟩ := hl
      intro hclean
      obtain ⟨⟨inner, hagree⟩, b, hb, -, -, hstack⟩ := h hclean
      rw [Function.update_self] at hstack
      have hinner : inner = stack := by
        have := hagree.1.2 rfl
        rwa [Function.update_self] at this
      exact ⟨hstack, hinner ▸ hagree⟩
    · rename_i hl
      refine Exit.pop block hctx ?_ ?_ h
      · intro _ _ _ name hkind
        cases hkind
      · rintro id' name rfl rfl tags' htags hname
        cases htags
        exact hl (by rw [hlabels]; exact List.mem_map_of_mem hname)
  refine triple_seq henter (hsections.mono (fun _ h => h) (fun s h hclean => ?_) (fun _ _ h => h))
  obtain ⟨hstack, -, -, -, hagree⟩ := h hclean
  simp only [block, Function.update_self] at hagree
  exact ⟨hstack, hagree.congr fun b hb =>
    ⟨rfl, rfl, (Function.update_of_ne (hne b hb) _ _).symm⟩⟩

theorem wellFormed_letBlock (id : ℕ) (saves : Bool) :
    Block.WellFormed ⟨id, .letBlock, saves⟩ :=
  ⟨fun h => h, fun _ h => by cases h⟩

theorem contains_true_specials : ∀ vars : NodeBindings,
    vars.specials.contains true = vars.anySpecial
  | .nil => rfl
  | .cons special _ rest => by
    rw [NodeBindings.specials, NodeBindings.anySpecial, List.contains_cons,
      contains_true_specials rest]
    cases special <;> rfl

theorem saved_exec {id k : ℕ} {b : Bool} (i : Instr) (s : State) (hi : SavesFrom (id + 1) i)
    (h : Clean s → b = true → s.depth id = k) :
    Clean (exec i s) → b = true → (exec i s).depth id = k := by
  intro hclean hb
  cases i with
  | save id' =>
    have hne : id ≠ id' := by
      have := hi id' rfl
      omega
    rw [← h hclean hb]
    exact Function.update_of_ne hne _ _
  | exit u => exact h (Clean.of_cons hclean).1 hb
  | _ => exact h hclean hb

/-- The values form of a `MULTIPLE-VALUE-BIND` keeps the depth that was saved before it. -/
theorem keeps_multipleValueBind {id : ℕ} {specials : List Bool} {values body : Emitted}
    (hctx : ContextOk id context) (hvalues : Keeps context values)
    (hsaves : values.AllInstr (SavesFrom (id + 1)))
    (hbody : Keeps (⟨id, .multipleValueBind, specials.contains true⟩ :: context) body) :
    Keeps context (.seq (emitWhen (specials.contains true) (.save id)) (.seq values
      (.seq (emitBinds specials)
        (.seq body (emitWhen (specials.contains true) (.restore id)))))) := by
  intro base stack
  let block : Block := ⟨id, .multipleValueBind, specials.contains true⟩
  have hwf : block.WellFormed := ⟨fun h => h, fun _ h => by cases h⟩
  have hne : ∀ b ∈ context, b.id ≠ id := fun b hb => (hctx b hb).1.ne
  let Saved : State → Prop := fun s => Clean s → block.saves = true → s.depth id = stack.length
  have hsave : Triple machine Right (At context base stack) (emitWhen block.saves (.save id))
      (fun s => At context base stack s ∧ Saved s) (Exit context base) := by
    apply triple_emitWhen
    · intro _ s hright hat
      refine ⟨hright, fun hclean => ?_, fun hclean _ => ?_⟩
      · obtain ⟨hstack, h⟩ := hat hclean
        exact ⟨hstack, h.congr fun b hb => ⟨Function.update_of_ne (hne b hb) _ _, rfl, rfl⟩⟩
      · show Function.update s.depth id s.stack.length id = _
        rw [Function.update_self, (hat hclean).1]
    · intro hb s hat
      refine ⟨hat, fun _ h => ?_⟩
      rw [hb] at h
      cases h
  have hframe := (hvalues base stack).frame (Q := Saved)
    (triple_of_allInstr saved_exec (fun _ h => h) values hsaves)
  have hinner : Triple machine Right (Inside (block :: context) (Function.update base id stack))
      (.seq (emitBinds specials) (.seq body (emitWhen block.saves (.restore id))))
      (At context base stack) (Exit context base) :=
    Triple.mono (triple_seq (triple_emitBinds specials fun h => show block.binds = true from h)
      (triple_seq hbody.inside (triple_leave block hctx hwf)))
      (fun _ h => h) (fun _ h => h) (fun _ _ h => h.pop_of_not_isTarget block hctx rfl)
  refine triple_seq hsave (triple_seq (hframe.mono (fun _ h => h) (fun _ h => h) (fun _ _ h => h.1))
    (hinner.mono ?_ (fun _ h => h) (fun _ _ h => h)))
  -- the block is entered after its values form
  rintro s ⟨hat, hsaved⟩
  refine ⟨stack, fun hclean => ?_⟩
  obtain ⟨hstack, hagree⟩ := hat hclean
  refine ⟨hstack, ⟨by simp [block], by simp [block]⟩, fun hb => ?_, fun h => (by cases h), ?_⟩
  · rw [hsaved hclean hb]
    simp [block]
  · simp only [block, Function.update_self]
    exact hagree.congr fun b hb => ⟨rfl, rfl, Function.update_of_ne (hne b hb) _ _⟩

mutual

theorem keeps_p2 : ∀ (node : Node) {n : ℕ} {context : List Block}, node.Above n →
    ContextOk n context → Keeps context (p2 node context)
  | .atom, _, _, _, _ => fun _ _ => triple_skip
  | .seq first second, _, _, h, hctx => fun base stack =>
    triple_seq (keeps_p2 first h.1 hctx base stack) (keeps_p2 second h.2 hctx base stack)
  | .cond test first second, _, _, h, hctx => fun base stack =>
    triple_seq (keeps_p2 test h.1 hctx base stack)
      (triple_branch (fun _ hright hat => ⟨hright, hat⟩)
        (keeps_p2 first h.2.1 hctx base stack) (keeps_p2 second h.2.2 hctx base stack))
  | .letNode id star vars body, n, context, ⟨hid, hvars, hbody⟩, hctx => by
    have hctx' := hctx.push ⟨id, .letBlock, vars.anySpecial⟩ hid
      (wellFormed_letBlock id _)
    refine keeps_block ⟨id, .letBlock, vars.anySpecial⟩ (hctx.mono hid)
      (wellFormed_letBlock id _) rfl (fun base => ?_) (keeps_p2 body hbody hctx')
    split
    · exact inside_p2LetStarVars vars hvars hctx' fun h => h
    · refine triple_seq (Keeps.inside (keeps_p2LetVars vars hvars hctx')) ?_
      exact triple_emitBinds _ fun h => by rwa [contains_true_specials] at h
  | .multipleValueBind id specials values body, n, context, ⟨hid, hvalues, hbody⟩, hctx =>
    keeps_multipleValueBind (hctx.mono hid) (keeps_p2 values hvalues (hctx.mono (by omega)))
      (allInstr_p2 values context hvalues le_rfl)
      (keeps_p2 body hbody (hctx.push ⟨id, .multipleValueBind, _⟩ hid
        ⟨fun h => h, fun _ h => by cases h⟩))
  | .progv id symbols values body, n, context, ⟨hid, hsymbols, hvalues, hbody⟩, hctx => by
    let block : Block := ⟨id, .progv, true⟩
    have hwf : block.WellFormed := ⟨fun _ => rfl, fun _ h => (by cases h)⟩
    have hctx' := hctx.push block hid hwf
    intro base stack
    have henter : Triple machine Right (At context base stack) (.instr (.save id))
        (Inside (block :: context) (Function.update base id stack))
        (Exit (block :: context) (Function.update base id stack)) :=
      (triple_enter block (hctx.mono hid) rfl).mono (fun _ h => h) (fun _ h => ⟨stack, h⟩)
        (fun _ _ h => h)
    have hinner := triple_seq henter (triple_seq
      (triple_seq (keeps_p2 symbols hsymbols hctx').inside
        (keeps_p2 values hvalues hctx').inside)
      (triple_seq (triple_bindVars rfl) (triple_seq (keeps_p2 body hbody hctx').inside
        (triple_leave block (hctx.mono hid) hwf))))
    exact hinner.mono (fun _ h => h) (fun _ h => h)
      (fun _ _ h => h.pop_of_not_isTarget block (hctx.mono hid) rfl)
  | .block id name saves body, n, context, ⟨hid, hbody⟩, hctx => by
    have hwf : Block.WellFormed ⟨id, .block name, saves⟩ :=
      ⟨fun h => (by cases h), fun _ h => (by cases h)⟩
    have hctx' := hctx.push ⟨id, .block name, saves⟩ hid hwf
    intro base stack
    exact triple_seq (triple_instr_enter (hctx.mono hid))
      (triple_seq (triple_save_target ⟨id, .block name, saves⟩ (hctx.mono hid))
        (triple_seq (triple_label_exit ⟨id, .block name, saves⟩ rfl (hctx.mono hid)
          (keeps_p2 body hbody hctx' _ _))
          (triple_seq (triple_restore_exit ⟨id, .block name, saves⟩ (hctx.mono hid) rfl)
            triple_arrive)))
  | .tagbody id items, n, context, ⟨hid, hitems⟩, hctx => by
    have hwf : Block.WellFormed ⟨id, .tagbody items.tags, false⟩ :=
      ⟨fun h => (by cases h), fun _ _ => rfl⟩
    refine keeps_tagbody (hctx.mono hid) (labels_p2Items id items _) fun base stack => ?_
    refine all_p2Items id items hitems
      (hctx.push ⟨id, .tagbody items.tags, false⟩ hid hwf) _ _ ?_
    refine Triple.mono triple_arrive (fun s h hclean => ⟨h hclean, ?_⟩) (fun _ h => h)
      (fun _ _ h => h)
    have := (h hclean).2.2.2.1 rfl
    rwa [Function.update_self] at this
  | .go tag, _, _, _, hctx => fun _ _ =>
    triple_p2Go (fun b hb => (hctx b hb).2) tag fun _ h => h
  | .returnFrom name result, _, _, h, hctx => fun base stack =>
    triple_seq (keeps_p2 result h hctx base stack) (triple_p2ReturnFrom name fun _ h => h)

theorem keeps_p2LetVars : ∀ (vars : NodeBindings) {n : ℕ} {context : List Block}, vars.Above n →
    ContextOk n context → Keeps context (p2LetVars vars context)
  | .nil, _, _, _, _ => fun _ _ => triple_skip
  | .cons _ initform rest, _, _, h, hctx => fun base stack =>
    triple_seq (keeps_p2 initform h.1 hctx base stack) (keeps_p2LetVars rest h.2 hctx base stack)

theorem inside_p2LetStarVars : ∀ (vars : NodeBindings) {n : ℕ} {block : Block}
    {context : List Block} {base : ℕ → List ℕ}, vars.Above n → ContextOk n (block :: context) →
    (vars.anySpecial = true → block.binds = true) →
    Triple machine Right (Inside (block :: context) base) (p2LetStarVars vars (block :: context))
      (Inside (block :: context) base) (Exit (block :: context) base)
  | .nil, _, _, _, _, _, _, _ => triple_skip
  | .cons special initform rest, _, _, _, _, h, hctx, hbinds => by
    refine triple_seq (Keeps.inside (keeps_p2 initform h.1 hctx))
      (triple_seq (triple_bind special fun hs => hbinds ?_)
        (inside_p2LetStarVars rest h.2 hctx fun hs => hbinds ?_))
    · simp [NodeBindings.anySpecial, hs]
    · simp [NodeBindings.anySpecial, hs]

theorem all_p2Items : ∀ (id : ℕ) (items : NodeItems) {n : ℕ} {context : List Block},
    items.Above n → ContextOk n context → ∀ base stack,
    Triple machine Right (At context base stack) (.instr (.arrive id)) (At context base stack)
      (Exit context base) →
    (p2Items id items context).All fun c =>
      Triple machine Right (At context base stack) c (At context base stack) (Exit context base)
  | _, .nil, _, _, _, _, _, _, _ => trivial
  | id, .tag _ rest, _, _, h, hctx, base, stack, harrive =>
    ⟨harrive, all_p2Items id rest h hctx base stack harrive⟩
  | id, .form node rest, _, _, h, hctx, base, stack, harrive =>
    ⟨keeps_p2 node h.1 hctx base stack, all_p2Items id rest h.2 hctx base stack harrive⟩

end

/-! ## The first pass -/

theorem Node.Above.mono : ∀ {node : Node} {n k : ℕ}, node.Above n → k ≤ n → node.Above k
  | .atom, _, _, _, _ => trivial
  | .seq _ _, _, _, h, hk => ⟨h.1.mono hk, h.2.mono hk⟩
  | .cond _ _ _, _, _, h, hk => ⟨h.1.mono hk, h.2.1.mono hk, h.2.2.mono hk⟩
  | .letNode _ _ _ _, _, _, h, hk => ⟨hk.trans h.1, h.2⟩
  | .multipleValueBind _ _ _ _, _, _, h, hk => ⟨hk.trans h.1, h.2⟩
  | .progv _ _ _ _, _, _, h, hk => ⟨hk.trans h.1, h.2⟩
  | .block _ _ _ _, _, _, h, hk => ⟨hk.trans h.1, h.2⟩
  | .tagbody _ _, _, _, h, hk => ⟨hk.trans h.1, h.2⟩
  | .go _, _, _, _, _ => trivial
  | .returnFrom _ result, _, _, h, hk => @Node.Above.mono result _ _ h hk

theorem NodeBindings.Above.mono : ∀ {vars : NodeBindings} {n k : ℕ}, vars.Above n → k ≤ n →
    vars.Above k
  | .nil, _, _, _, _ => trivial
  | .cons _ _ _, _, _, h, hk => ⟨h.1.mono hk, NodeBindings.Above.mono h.2 hk⟩

theorem NodeItems.Above.mono : ∀ {items : NodeItems} {n k : ℕ}, items.Above n → k ≤ n →
    items.Above k
  | .nil, _, _, _, _ => trivial
  | .tag _ rest, _, _, h, hk => @NodeItems.Above.mono rest _ _ h hk
  | .form _ _, _, _, h, hk => ⟨h.1.mono hk, NodeItems.Above.mono h.2 hk⟩

theorem p1_returnFrom (name : String) (result : Form) (visible : List (String × ℕ))
    (st : Pass1) :
    p1 (.returnFrom name result) visible st = p1 result visible st ∨
      ((p1 (.returnFrom name result) visible st).1 = .returnFrom name (p1 result visible st).1 ∧
        (p1 (.returnFrom name result) visible st).2.next = (p1 result visible st).2.next) := by
  cases result with
  | returnFrom name' result' =>
    left
    rw [p1]
  | _ =>
    right
    cases hfind : findBlock name visible with
    | none => simp [p1, hfind]
    | some id => simp [p1, hfind]

mutual

theorem above_p1 : ∀ (form : Form) (visible : List (String × ℕ)) (st : Pass1),
    (p1 form visible st).1.Above st.next ∧ st.next ≤ (p1 form visible st).2.next
  | .atom, _, _ => ⟨trivial, le_rfl⟩
  | .seq first second, visible, st => by
    have h₁ := above_p1 first visible st
    have h₂ := above_p1 second visible (p1 first visible st).2
    exact ⟨⟨h₁.1, h₂.1.mono h₁.2⟩, h₁.2.trans h₂.2⟩
  | .cond test first second, visible, st => by
    have h₁ := above_p1 test visible st
    have h₂ := above_p1 first visible (p1 test visible st).2
    have h₃ := above_p1 second visible (p1 first visible (p1 test visible st).2).2
    exact ⟨⟨h₁.1, h₂.1.mono h₁.2, h₃.1.mono (h₁.2.trans h₂.2)⟩, h₁.2.trans (h₂.2.trans h₃.2)⟩
  | .letForm star vars body, visible, st => by
    have h₁ := above_p1Vars vars visible { st with next := st.next + 1 }
    have h₂ := above_p1 body visible
      { (p1Vars vars visible { st with next := st.next + 1 }).2 with
        special := (p1Vars vars visible { st with next := st.next + 1 }).2.special ||
          vars.anySpecial }
    exact ⟨⟨le_rfl, h₁.1, h₂.1.mono h₁.2⟩, (Nat.le_succ _).trans (h₁.2.trans h₂.2)⟩
  | .multipleValueBind specials values body, visible, st => by
    have h₁ := above_p1 values visible { st with next := st.next + 1 }
    have h₂ := fun special => above_p1 body visible
      { (p1 values visible { st with next := st.next + 1 }).2 with
        special := (p1 values visible { st with next := st.next + 1 }).2.special || special }
    have hnext := fun special => (Nat.le_succ st.next).trans (h₁.2.trans (h₂ special).2)
    -- one variable makes a `LET*`
    rcases specials with _ | ⟨special, _ | ⟨special', specials⟩⟩
    · exact ⟨⟨le_rfl, h₁.1, (h₂ false).1.mono h₁.2⟩, hnext false⟩
    · exact ⟨⟨le_rfl, ⟨h₁.1, trivial⟩, (h₂ special).1.mono h₁.2⟩, hnext special⟩
    · exact ⟨⟨le_rfl, h₁.1, (h₂ _).1.mono h₁.2⟩,
        hnext ((special :: special' :: specials).contains true)⟩
  | .progv symbols values body, visible, st => by
    have h₁ := above_p1 symbols visible { st with next := st.next + 2 }
    have h₂ := above_p1 values visible (p1 symbols visible { st with next := st.next + 2 }).2
    have h₃ := above_p1 body visible
      (p1 values visible (p1 symbols visible { st with next := st.next + 2 }).2).2
    have hnext : st.next ≤ st.next + 2 := by omega
    have hsecond := h₂.1.mono h₁.2
    have hthird := h₃.1.mono (h₁.2.trans h₂.2)
    have hall := hnext.trans (h₁.2.trans (h₂.2.trans h₃.2))
    rw [p1]
    simp only
    split
    · exact ⟨⟨le_rfl, ⟨h₁.1.mono (by simp), hsecond.mono (by simp), trivial⟩, le_rfl, trivial,
        trivial, hthird⟩, hall⟩
    · exact ⟨⟨le_rfl, h₁.1.mono (by simp), hsecond.mono (by simp), hthird.mono (by simp)⟩, hall⟩
  | .block name body, visible, st => by
    have h := above_p1 body ((name, st.next) :: visible) { st with next := st.next + 1 }
    exact ⟨⟨le_rfl, h.1⟩, (Nat.le_succ _).trans h.2⟩
  | .tagbody items, visible, st => by
    have h := above_p1Items items true visible { st with next := st.next + 1 }
    exact ⟨⟨le_rfl, h.1⟩, (Nat.le_succ _).trans h.2⟩
  | .go _, _, _ => ⟨trivial, le_rfl⟩
  | .returnFrom name result, visible, st => by
    have h := above_p1 result visible st
    rcases p1_returnFrom name result visible st with heq | ⟨heq, hnext⟩
    · rw [heq]
      exact h
    · rw [heq, hnext]
      exact h

theorem above_p1Vars : ∀ (vars : Bindings) (visible : List (String × ℕ)) (st : Pass1),
    (p1Vars vars visible st).1.Above st.next ∧ st.next ≤ (p1Vars vars visible st).2.next
  | .nil, _, _ => ⟨trivial, le_rfl⟩
  | .cons _ initform rest, visible, st => by
    have h₁ := above_p1 initform visible st
    have h₂ := above_p1Vars rest visible (p1 initform visible st).2
    exact ⟨⟨h₁.1, NodeBindings.Above.mono h₂.1 h₁.2⟩, h₁.2.trans h₂.2⟩

theorem above_p1Items : ∀ (items : Items) (live : Bool) (visible : List (String × ℕ))
    (st : Pass1), (p1Items items live visible st).1.Above st.next ∧
      st.next ≤ (p1Items items live visible st).2.next
  | .nil, _, _, _ => ⟨trivial, le_rfl⟩
  | .tag _ rest, _, visible, st => above_p1Items rest true visible st
  | .form form rest, live, visible, st => by
    have h₁ := above_p1 form visible st
    have h₂ := above_p1Items rest (!form.leaves) visible (p1 form visible st).2
    rw [p1Items]
    split
    · exact ⟨⟨h₁.1, NodeItems.Above.mono h₂.1 h₁.2⟩, h₁.2.trans h₂.2⟩
    · exact above_p1Items rest false visible st

end

/-! ## Runs of a function -/

/-- In a run whose exits all unwind, the stack at every arrival is the stack at the entry. -/
theorem arrivals_right (n : ℕ) (special : Bool) (form : Form) (stack : List ℕ) (inputs : ℕ → ℕ)
    (h : ∀ u ∈ (runFunction n special form stack inputs).exits, u = true) :
    ∀ a ∈ (runFunction n special form stack inputs).arrivals, a.1 = a.2 := by
  have habove := (above_p1 form [] ⟨0, special, []⟩).1
  have hcontext : ContextOk 0 [] := by
    intro b hb
    cases hb
  have hkeeps := keeps_p2 _ habove hcontext (fun _ => []) stack
  have hright : Right (start stack inputs) := by
    intro _ a ha
    cases ha
  exact hkeeps.inv n hright (fun _ => ⟨rfl, trivial⟩) h

/-- A loop that leaves a special binding by a `GO` and its block by a `RETURN-FROM`. -/
def sampleForm : Form :=
  .block "B" (.tagbody (.tag "A" (.form
    (.letForm false (.cons true .atom .nil)
      (.cond .atom (.go "A") (.progv .atom .atom (.returnFrom "B" .atom)))) .nil)))

theorem arrivals_right_sampleForm :
    (runFunction 40 false sampleForm [7] (fun t => 5 - t)).arrivals.length = 4 ∧
      ∀ a ∈ (runFunction 40 false sampleForm [7] (fun t => 5 - t)).arrivals, a.1 = a.2 :=
  ⟨by decide, arrivals_right 40 false sampleForm [7] (fun t => 5 - t) (by decide)⟩

/-- `(tagbody (multiple-value-bind (*a* b) (f) (go a)) a)` and
`(block b (progv symbols values (return-from b)))` leave their bindings on the stack. -/
theorem arrivals_not_right :
    ¬ (∀ n special form stack inputs,
      ∀ a ∈ (runFunction n special form stack inputs).arrivals, a.1 = a.2) ∧
    (runFunction 20 false (.tagbody (.form (.multipleValueBind [true, false] .atom (.go "A"))
      (.tag "A" .nil))) [] (fun _ => 1)).arrivals = [([], [1])] ∧
    (runFunction 20 false (.block "B" (.progv .atom .atom (.returnFrom "B" .atom))) []
      (fun _ => 1)).arrivals = [([], [1])] := by
  refine ⟨?_, by decide, by decide⟩
  intro h
  have hleak := h 20 false (.block "B" (.progv .atom .atom (.returnFrom "B" .atom))) []
    (fun _ => 1) ([], [1]) (by decide)
  cases hleak

end Xcl.SpecialBinding
