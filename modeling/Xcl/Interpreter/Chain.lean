import Xcl.Interpreter.Eval

/-!
# The chain of control frames

* `Control.Reaches`: the frames that are live;
* `Chained`: a list of frames is the chain, and no frame of it is in the pool.
-/

namespace Xcl.Interpreter

/-! ## Live frames -/

/-- A frame that `next` leads to from the last control frame. -/
inductive Control.Reaches (c : Control) : ℕ → Prop
  | last {f : ℕ} : c.lastControlFrame = some f → c.Reaches f
  | next {f g : ℕ} : c.Reaches f → (c.frames f).next = some g → c.Reaches g

/-- No frame of the pool is live, and none is in the pool twice. -/
def Control.Recycled (c : Control) : Prop := c.pool.Nodup ∧ ∀ f ∈ c.pool, ¬ c.Reaches f

/-- The chain that begins at `start`. Each frame was made when its successor was last. -/
def IsChain (frames : ℕ → Frame) : Option ℕ → List ℕ → Prop
  | start, [] => start = none
  | start, f :: fs =>
    start = some f ∧ (frames f).lastControlFrame = (frames f).next ∧
      IsChain frames (frames f).next fs

structure ChainedFrom (c : Control) (start : Option ℕ) (chain : List ℕ) : Prop where
  isChain : IsChain c.frames start chain
  nodup : (chain ++ c.pool).Nodup
  lt : ∀ f ∈ chain ++ c.pool, f < c.size

def Chained (c : Control) (chain : List ℕ) : Prop := ChainedFrom c c.lastControlFrame chain

variable {c c' : Control} {start : Option ℕ} {chain : List ℕ} {f : ℕ}

theorem IsChain.congr {frames frames' : ℕ → Frame} (h : IsChain frames start chain)
    (hsame : ∀ f ∈ chain, (frames' f).lastControlFrame = (frames f).lastControlFrame ∧
      (frames' f).next = (frames f).next) : IsChain frames' start chain := by
  induction chain generalizing start with
  | nil => exact h
  | cons f fs ih =>
    obtain ⟨hstart, hlast, hrest⟩ := h
    obtain ⟨hlast', hnext'⟩ := hsame f List.mem_cons_self
    refine ⟨hstart, ?_, ?_⟩
    · rw [hlast', hnext', hlast]
    · rw [hnext']
      exact ih hrest fun g hg => hsame g (List.mem_cons_of_mem f hg)

theorem IsChain.drop {frames : ℕ → Frame} {before : List ℕ}
    (h : IsChain frames start (before ++ f :: chain)) : IsChain frames (some f) (f :: chain) := by
  induction before generalizing start with
  | nil =>
    obtain ⟨-, hrest⟩ := h
    exact ⟨rfl, hrest⟩
  | cons g before ih => exact ih h.2.2

theorem ChainedFrom.drop {before : List ℕ} (h : ChainedFrom c start (before ++ f :: chain)) :
    ChainedFrom c (some f) (f :: chain) where
  isChain := h.isChain.drop
  nodup := by
    have hnodup := h.nodup
    rw [List.append_assoc] at hnodup
    exact (List.nodup_append.1 hnodup).2.1
  lt g hg := h.lt g (by
    rw [List.append_assoc]
    exact List.mem_append_right before hg)

theorem ChainedFrom.tail (h : ChainedFrom c start (f :: chain)) :
    ChainedFrom c (c.frames f).next chain where
  isChain := h.isChain.2.2
  nodup := h.nodup.of_cons
  lt g hg := h.lt g (List.mem_cons_of_mem f hg)

theorem ChainedFrom.notMem_pool (h : ChainedFrom c start chain) (hf : f ∈ chain) :
    f ∉ c.pool := by
  intro hpool
  exact List.disjoint_of_nodup_append h.nodup hf hpool

theorem Chained.mem_of_reaches (h : Chained c chain) (hreaches : c.Reaches f) : f ∈ chain := by
  have hmem : ∀ {start chain}, IsChain c.frames start chain →
      (∀ g, start = some g → g ∈ chain) ∧
        ∀ g ∈ chain, ∀ k, (c.frames g).next = some k → k ∈ chain := by
    intro start chain
    induction chain generalizing start with
    | nil =>
      intro h
      refine ⟨fun g hg => ?_, fun g hg => absurd hg List.not_mem_nil⟩
      rw [h] at hg
      cases hg
    | cons g fs ih =>
      rintro ⟨rfl, -, hrest⟩
      obtain ⟨hstart, hnext⟩ := ih hrest
      refine ⟨fun k hk => ?_, fun k hk l hl => ?_⟩
      · obtain rfl := Option.some.inj hk
        exact List.mem_cons_self
      · rcases List.mem_cons.1 hk with rfl | hk
        · exact List.mem_cons_of_mem k (hstart l hl)
        · exact List.mem_cons_of_mem g (hnext k hk l hl)
  obtain ⟨hstart, hnext⟩ := hmem h.isChain
  induction hreaches with
  | last hf => exact hstart _ hf
  | next _ hg ih => exact hnext _ ih _ hg

theorem Chained.recycled (h : Chained c chain) : c.Recycled := by
  refine ⟨(List.nodup_append.1 h.nodup).2.1, fun f hf hreaches => ?_⟩
  exact h.notMem_pool (h.mem_of_reaches hreaches) hf

/-! ## The search -/

theorem findFrame_of_isChain (p : Frame → Bool) {n : ℕ} (h : IsChain c.frames start chain)
    (hn : chain.length < n) :
    c.findFrame p n start = some (chain.find? fun f => p (c.frames f)) := by
  induction chain generalizing start n with
  | nil =>
    obtain ⟨n, rfl⟩ := Nat.exists_eq_succ_of_ne_zero (Nat.ne_zero_of_lt hn)
    rw [show start = none from h]
    rfl
  | cons f fs ih =>
    obtain ⟨n, rfl⟩ := Nat.exists_eq_succ_of_ne_zero (Nat.ne_zero_of_lt hn)
    obtain ⟨rfl, -, hrest⟩ := h
    rw [Control.findFrame, List.find?_cons]
    split
    · rename_i hp
      rw [hp]
    · rename_i hp
      rw [Bool.not_eq_true] at hp
      rw [hp]
      exact ih hrest (Nat.lt_of_succ_lt_succ hn)

theorem Chained.length_le (h : Chained c chain) : chain.length ≤ c.size := by
  have hsubset : chain.toFinset ⊆ Finset.range c.size := by
    intro f hf
    rw [Finset.mem_range]
    exact h.lt f (List.mem_append_left _ (List.mem_toFinset.1 hf))
  have hcard := Finset.card_le_card hsubset
  rwa [List.toFinset_card_of_nodup (List.nodup_append.1 h.nodup).1, Finset.card_range] at hcard

theorem Chained.find (h : Chained c chain) (p : Frame → Bool) :
    c.find p = some (chain.find? fun f => p (c.frames f)) :=
  findFrame_of_isChain p h.isChain (Nat.lt_succ_of_le h.length_le)

/-! ## Changes -/

theorem ChainedFrom.congr (h : ChainedFrom c start chain)
    (hsame : ∀ f ∈ chain, (c'.frames f).lastControlFrame = (c.frames f).lastControlFrame ∧
      (c'.frames f).next = (c.frames f).next)
    (hpool : c'.pool.Sublist c.pool) (hsize : c.size ≤ c'.size) : ChainedFrom c' start chain where
  isChain := h.isChain.congr hsame
  nodup := h.nodup.sublist ((List.Sublist.refl chain).append hpool)
  lt f hf := (h.lt f ((List.Sublist.refl chain).append hpool |>.subset hf)).trans_le hsize

structure Fresh (c : Control) (chain : List ℕ) (f : ℕ) : Prop where
  notMem_chain : f ∉ chain
  notMem_pool : f ∉ c.pool
  lt : f < c.size

theorem ChainedFrom.setFrame (h : ChainedFrom c start chain) (hf : f ∉ chain) (frame : Frame) :
    ChainedFrom (c.setFrame f frame) start chain := by
  refine h.congr ?_ (List.Sublist.refl _) le_rfl
  intro g hg
  have hne : g ≠ f := fun heq => hf (heq ▸ hg)
  simp [Control.setFrame, hne]

theorem Chained.push (h : Chained c chain) (hf : Fresh c chain f)
    (hlast : (c.frames f).lastControlFrame = c.lastControlFrame)
    (hnext : (c.frames f).next = c.lastControlFrame) :
    Chained (c.setLastControlFrame (some f)) (f :: chain) where
  isChain := ⟨rfl, hlast.trans hnext.symm, hnext.symm ▸ h.isChain⟩
  nodup := List.nodup_cons.2
    ⟨fun hmem => (List.mem_append.1 hmem).elim hf.notMem_chain hf.notMem_pool, h.nodup⟩
  lt g hg := by
    rcases List.mem_cons.1 hg with rfl | hg
    · exact hf.lt
    · exact h.lt g hg

theorem ChainedFrom.leave (h : ChainedFrom c (some f) (f :: chain)) :
    Chained (c.setLastControlFrame (c.frames f).lastControlFrame) chain ∧
      Fresh (c.setLastControlFrame (c.frames f).lastControlFrame) chain f := by
  obtain ⟨-, hlast, hrest⟩ := h.isChain
  obtain ⟨hnotMem, hnodup⟩ := List.nodup_cons.1 h.nodup
  refine ⟨⟨?_, hnodup, fun g hg => h.lt g (List.mem_cons_of_mem f hg)⟩, ?_⟩
  · change IsChain c.frames (c.frames f).lastControlFrame chain
    rw [hlast]
    exact hrest
  · exact ⟨fun hmem => hnotMem (List.mem_append_left _ hmem),
      fun hmem => hnotMem (List.mem_append_right _ hmem), h.lt f List.mem_cons_self⟩

theorem ChainedFrom.releaseFrame (h : ChainedFrom c start chain) (hf : Fresh c chain f) :
    ChainedFrom (c.releaseFrame f) start chain := by
  unfold Control.releaseFrame
  split
  · have hset := h.setFrame hf.notMem_chain .clear
    refine ⟨hset.isChain, List.nodup_middle.2 (List.nodup_cons.2 ⟨?_, h.nodup⟩), fun g hg => ?_⟩
    · intro hmem
      exact (List.mem_append.1 hmem).elim hf.notMem_chain hf.notMem_pool
    · rcases List.mem_append.1 hg with hg | hg
      · exact h.lt g (List.mem_append_left _ hg)
      · rcases List.mem_cons.1 hg with rfl | hg
        · exact hf.lt
        · exact h.lt g (List.mem_append_right _ hg)
  · exact h

end Xcl.Interpreter
