import Xcl.Destructuring.Model
import Mathlib.Tactic

/-!
# Three parts instead of one pass

* `mix`: bindings that are made before others;
* `Frames`: a binder neither reads nor writes a variable.
-/

namespace Xcl.Destructuring

/-! ## Paths and new variables -/

theorem Path.value_cdr (G : ℕ → Value) (path : Path) :
    path.cdr.value G = (path.value G).bind Destructuring.cdr := by
  unfold Path.value Path.cdr
  rw [List.range_succ, List.foldl_append]
  rfl

theorem Path.value_congr {G G' : ℕ → Value} {path : Path} (h : G' path.base = G path.base) :
    path.value G' = path.value G := by
  unfold Path.value
  rw [h]

/-- The new variables below `n` have the same values. -/
def SameBelow (n : ℕ) (G G' : ℕ → Value) : Prop := ∀ g < n, G' g = G g

theorem SameBelow.refl (n : ℕ) (G : ℕ → Value) : SameBelow n G G := fun _ _ => rfl

theorem SameBelow.trans {n m : ℕ} {G G' G'' : ℕ → Value} (h : SameBelow n G G')
    (h' : SameBelow m G' G'') (hnm : n ≤ m) : SameBelow n G G'' :=
  fun g hg => (h' g (Nat.lt_of_lt_of_le hg hnm)).trans (h g hg)

theorem sameBelow_update (n : ℕ) (G : ℕ → Value) (v : Value) :
    SameBelow n G (Function.update G n v) :=
  fun _ hg => Function.update_of_ne (Nat.ne_of_lt hg) v G

/-! ## Bindings that are made early -/

/-- The variables after some bindings. -/
def mix (f : List (String × Value)) (U : String → Value) : String → Value :=
  f.foldl (fun U b => Function.update U b.1 b.2) U

theorem mix_append (f f' : List (String × Value)) (U : String → Value) :
    mix (f ++ f') U = mix f' (mix f U) := List.foldl_append

theorem mix_update {f : List (String × Value)} {x : String} (hx : x ∉ f.map Prod.fst) (v : Value)
    (U : String → Value) : mix f (Function.update U x v) = Function.update (mix f U) x v := by
  induction f generalizing U with
  | nil => rfl
  | cons b f ih =>
    rw [List.map_cons, List.mem_cons, not_or] at hx
    have hcomm : mix (b :: f) (Function.update U x v) =
        mix f (Function.update (Function.update U x v) b.1 b.2) := rfl
    rw [hcomm, Function.update_comm hx.1, ih hx.2]
    rfl

theorem mix_comm {f f' : List (String × Value)}
    (h : ∀ x ∈ f'.map Prod.fst, x ∉ f.map Prod.fst) (U : String → Value) :
    mix f (mix f' U) = mix f' (mix f U) := by
  induction f' generalizing U with
  | nil => rfl
  | cons b f' ih =>
    have hb : b.1 ∉ f.map Prod.fst := h b.1 List.mem_cons_self
    have hstep : mix f (mix (b :: f') U) = mix f (mix f' (Function.update U b.1 b.2)) := rfl
    rw [hstep, ih fun x hx => h x (List.mem_cons_of_mem b.1 hx), mix_update hb]
    rfl

theorem mix_of_mem {f : List (String × Value)} {x : String} (hx : x ∈ f.map Prod.fst)
    (U V : String → Value) : mix f U x = mix f V x := by
  induction f generalizing U V with
  | nil => cases hx
  | cons b f ih =>
    by_cases hmem : x ∈ f.map Prod.fst
    · exact ih hmem _ _
    · have hxb : x = b.1 := by
        rw [List.map_cons, List.mem_cons] at hx
        exact hx.resolve_right hmem
      show mix f (Function.update U b.1 b.2) x = mix f (Function.update V b.1 b.2) x
      rw [← hxb, mix_update hmem, mix_update hmem, Function.update_self, Function.update_self]

theorem mix_of_notMem {f : List (String × Value)} {x : String} (hx : x ∉ f.map Prod.fst)
    (U : String → Value) : mix f U x = U x := by
  have hsame := congrFun (mix_update hx (U x) U) x
  rwa [Function.update_eq_self, Function.update_self] at hsame

theorem mix_eq_self {f : List (String × Value)} {U V : String → Value}
    (h : ∀ x ∈ f.map Prod.fst, U x = mix f V x) : mix f U = U := by
  funext x
  by_cases hx : x ∈ f.map Prod.fst
  · rw [h x hx]
    exact mix_of_mem hx U V
  · exact mix_of_notMem hx U

section Run

variable {σ : Type} {I : Interp σ}

/-- A binder neither reads nor writes a variable. -/
def Frames (b : Binder σ) (x : String) : Prop :=
  ∀ v U s, b (Function.update U x v, s) =
    (b (U, s)).map fun r => (Function.update r.1 x v, r.2)

theorem Frames.mix {b : Binder σ} {f : List (String × Value)}
    (h : ∀ x ∈ f.map Prod.fst, Frames b x) (U : String → Value) (s : σ) :
    b (mix f U, s) = (b (U, s)).map fun r => (mix f r.1, r.2) := by
  induction f generalizing U with
  | nil =>
    show b (U, s) = (b (U, s)).map id
    rw [Option.map_id]
    rfl
  | cons c f ih =>
    have hstep : b (Destructuring.mix (c :: f) U, s) =
        b (Destructuring.mix f (Function.update U c.1 c.2), s) := rfl
    rw [hstep, ih fun x hx => h x (List.mem_cons_of_mem c.1 hx), h c.1 List.mem_cons_self,
      Option.map_map]
    rfl

theorem Frames.keeps {b : Binder σ} {x : String} (h : Frames b x) {U : String → Value} {s : σ}
    {r : Bound σ} (hr : b (U, s) = some r) : r.1 x = U x := by
  have hsame := h (U x) U s
  rw [Function.update_eq_self, hr] at hsame
  have hfirst : r.1 = Function.update r.1 x (U x) :=
    congrArg Prod.fst (Option.some.inj hsame)
  rw [hfirst, Function.update_self]

theorem Frames.bind {b c : Binder σ} {x : String} (hb : Frames b x) (hc : Frames c x) :
    Frames (fun r => (b r).bind c) x := by
  intro v U s
  show (b (Function.update U x v, s)).bind c = _
  rw [hb]
  cases hr : b (U, s) with
  | none =>
    simp [hr]
  | some r =>
    simp only [hr, Option.map_some, Option.bind_some]
    exact hc v r.1 r.2

/-! ## Code in three parts -/

theorem runSystem_append (a b : List (Name × Code)) (st : SystemState σ) :
    runSystem I (a ++ b) st = (runSystem I a st).bind (runSystem I b) := by
  induction a generalizing st with
  | nil => rfl
  | cons x a ih =>
    obtain ⟨name, code⟩ := x
    rw [List.cons_append, runSystem, runSystem]
    cases eval I st.1 st.2.1 code st.2.2 with
    | none => rfl
    | some r => exact ih _

theorem runUser_append (G : ℕ → Value) (a b : List (String × Code)) (x : Bound σ) :
    runUser I G (a ++ b) x = (runUser I G a x).bind (runUser I G b) := by
  induction a generalizing x with
  | nil => rfl
  | cons y a ih =>
    obtain ⟨name, code⟩ := y
    rw [List.cons_append, runUser, runUser]
    cases eval I x.1 G code x.2 with
    | none => rfl
    | some r => exact ih _

theorem finish_append (o o' : Output) (G : ℕ → Value) (x : Bound σ) :
    (o.append o').finish I G x = (o.finish I G x).bind (o'.finish I G) := by
  unfold Output.finish Output.append
  rw [List.all_append, runUser_append]
  by_cases h : o.argTests.all (runTest G) = true
  · rw [if_pos h, h, Bool.and_true]
    by_cases h' : o'.argTests.all (runTest G) = true
    · rw [if_pos h']
      congr 1
      funext y
      rw [if_pos h']
    · rw [if_neg h']
      cases runUser I G o.userLets x with
      | none => rfl
      | some y => exact (if_neg h').symm
  · rw [if_neg h, Bool.eq_false_iff.mpr h, Bool.and_false]
    rfl

/-- The new variables that the first part of the code binds are from `n` on, and the other
variables that it binds are in `names`. -/
def Above (n : ℕ) (o : Output) (names : List String) : Prop :=
  n ≤ o.next ∧ ∀ b ∈ o.systemLets, (∀ g, b.1 = .gensym g → n ≤ g) ∧ ∀ x, b.1 = .user x → x ∈ names

theorem Above.append {n : ℕ} {o o' : Output} {names names' : List String} (h : Above n o names)
    (h' : Above o.next o' names') : Above n (o.append o') (names ++ names') := by
  refine ⟨h.1.trans h'.1, fun b hb => ?_⟩
  rcases List.mem_append.mp hb with hb | hb
  · exact ⟨(h.2 b hb).1, fun x hx => List.mem_append_left _ ((h.2 b hb).2 x hx)⟩
  · exact ⟨fun g hg => h.1.trans ((h'.2 b hb).1 g hg),
      fun x hx => List.mem_append_right _ ((h'.2 b hb).2 x hx)⟩

theorem runSystem_keeps {n : ℕ} {names : List String} {lets : List (Name × Code)}
    (h : ∀ b ∈ lets, (∀ g, b.1 = .gensym g → n ≤ g) ∧ ∀ x, b.1 = .user x → x ∈ names)
    {st st' : SystemState σ} (hrun : runSystem I lets st = some st') :
    SameBelow n st.2.1 st'.2.1 ∧ ∀ x, x ∉ names → st'.1 x = st.1 x := by
  induction lets generalizing st with
  | nil =>
    cases hrun
    exact ⟨SameBelow.refl n _, fun _ _ => rfl⟩
  | cons b lets ih =>
    obtain ⟨name, code⟩ := b
    rw [runSystem] at hrun
    obtain ⟨r, -, hrun⟩ := Option.bind_eq_some_iff.mp hrun
    obtain ⟨hsystem, huser⟩ := ih (fun b hb => h b (List.mem_cons_of_mem _ hb)) hrun
    have hname := h _ List.mem_cons_self
    cases name with
    | user name =>
      refine ⟨hsystem, fun x hx => (huser x hx).trans ?_⟩
      have hne : x ≠ name := fun hxn => hx (hxn ▸ hname.2 name rfl)
      exact Function.update_of_ne hne r.1 st.1
    | gensym g =>
      refine ⟨SameBelow.trans (fun k hk => ?_) hsystem le_rfl, huser⟩
      have hg : n ≤ g := hname.1 g rfl
      have hne : k ≠ g := by omega
      exact Function.update_of_ne hne r.1 st.2.1

/-- The code ends in an error, in its last part at the latest, where the variables in `names` have
the values that the first part gave them. -/
def Fails (I : Interp σ) (G : ℕ → Value) (o : Output) (names : List String) : Prop :=
  ∀ U s st, runSystem I o.systemLets (U, G, s) = some st →
    ∀ G', SameBelow o.next st.2.1 G' → ∀ U' s', (∀ x ∈ names, U' x = st.1 x) →
      o.finish I G' (U', s') = none

/-- The code binds the variables in `names` early, and otherwise does what the binder does. -/
def Works (I : Interp σ) (n : ℕ) (G : ℕ → Value) (o : Output) (b : Binder σ)
    (names : List String) : Prop :=
  ∃ f G', f.map Prod.fst = names ∧ SameBelow n G G' ∧
    (∀ U s, runSystem I o.systemLets (U, G, s) = some (mix f U, G', s)) ∧
    ∀ G'', SameBelow o.next G' G'' → ∀ U s, o.finish I G'' (mix f U, s) = b (U, s)

def Correct (I : Interp σ) (n : ℕ) (G : ℕ → Value) (o : Output) (b : Binder σ)
    (names : List String) : Prop :=
  (Fails I G o names ∧ ∀ x, b x = none) ∨ Works I n G o b names

variable {n : ℕ} {G : ℕ → Value} {o o' : Output} {b c : Binder σ} {names names' : List String}

theorem Fails.append_left (h : Fails I G o names) (habove : Above o.next o' names')
    (hdisjoint : ∀ x ∈ names', x ∉ names) : Fails I G (o.append o') (names ++ names') := by
  intro U s st hrun G' hG' U' s' hU'
  rw [show (o.append o').systemLets = o.systemLets ++ o'.systemLets from rfl,
    runSystem_append] at hrun
  obtain ⟨st₁, hrun₁, hrun₂⟩ := Option.bind_eq_some_iff.mp hrun
  obtain ⟨hsystem, huser⟩ := runSystem_keeps habove.2 hrun₂
  have hnames : ∀ x ∈ names, U' x = st₁.1 x := by
    intro x hx
    rw [hU' x (List.mem_append_left _ hx)]
    exact huser x fun hx' => hdisjoint x hx' hx
  rw [finish_append, h U s st₁ hrun₁ G' (hsystem.trans hG' habove.1) U' s' hnames]
  rfl

/-- The second code fails after the first has done its work. -/
theorem Fails.append_right {f : List (String × Value)} {G₁ : ℕ → Value}
    (hf : f.map Prod.fst = names)
    (hsystem : ∀ U s, runSystem I o.systemLets (U, G, s) = some (mix f U, G₁, s))
    (hfinish : ∀ G', SameBelow o.next G₁ G' → ∀ U s, o.finish I G' (mix f U, s) = b (U, s))
    (habove : Above o.next o' names') (h : Fails I G₁ o' names')
    (hframes : ∀ x ∈ names', Frames b x) (hdisjoint : ∀ x ∈ names', x ∉ names) :
    Fails I G (o.append o') (names ++ names') := by
  intro U s st hrun G' hG' U' s' hU'
  rw [show (o.append o').systemLets = o.systemLets ++ o'.systemLets from rfl,
    runSystem_append, hsystem] at hrun
  obtain ⟨hbelow, huser⟩ := runSystem_keeps habove.2 hrun
  have hmix : mix f U' = U' := by
    refine mix_eq_self (V := U) fun x hx => ?_
    rw [hf] at hx
    rw [hU' x (List.mem_append_left _ hx)]
    exact huser x fun hx' => hdisjoint x hx' hx
  have hfirst : o.finish I G' (U', s') = b (U', s') := by
    have h₁ := hfinish G' (hbelow.trans hG' habove.1) U' s'
    rwa [hmix] at h₁
  rw [finish_append, hfirst]
  cases hb : b (U', s') with
  | none => rfl
  | some r =>
    refine h _ _ st hrun G' hG' r.1 r.2 fun x hx => ?_
    rw [(hframes x hx).keeps hb]
    exact hU' x (List.mem_append_right _ hx)

theorem Correct.append (h : Correct I n G o b names) (hn : n ≤ o.next)
    (habove : Above o.next o' names')
    (h' : ∀ G', SameBelow n G G' → Correct I o.next G' o' c names')
    (hframes : ∀ x ∈ names', Frames b x) (hdisjoint : ∀ x ∈ names', x ∉ names) :
    Correct I n G (o.append o') (fun x => (b x).bind c) (names ++ names') := by
  rcases h with ⟨hfails, hnone⟩ | ⟨f, G₁, hf, hG₁, hsystem, hfinish⟩
  · refine Or.inl ⟨hfails.append_left habove hdisjoint, fun x => ?_⟩
    show (b x).bind c = none
    rw [hnone]
    rfl
  · rcases h' G₁ hG₁ with ⟨hfails, hnone⟩ | ⟨f', G₂, hf', hG₂, hsystem', hfinish'⟩
    · refine Or.inl ⟨Fails.append_right hf hsystem hfinish habove hfails hframes hdisjoint,
        fun x => ?_⟩
      show (b x).bind c = none
      cases b x with
      | none => rfl
      | some y => exact hnone y
    · refine Or.inr ⟨f ++ f', G₂, ?_, hG₁.trans hG₂ hn, fun U s => ?_, fun G₃ hG₃ U s => ?_⟩
      · rw [List.map_append, hf, hf']
      · rw [show (o.append o').systemLets = o.systemLets ++ o'.systemLets from rfl,
          runSystem_append, hsystem, Option.bind_some, hsystem', mix_append]
      · have hcomm : mix f (mix f' U) = mix f' (mix f U) :=
          mix_comm (by rw [hf, hf']; exact hdisjoint) U
        have hearly : b (mix f' U, s) = (b (U, s)).map fun r => (mix f' r.1, r.2) :=
          Frames.mix (by rw [hf']; exact hframes) U s
        rw [finish_append, mix_append, ← hcomm, hfinish G₃ (hG₂.trans hG₃ habove.1), hearly]
        show _ = (b (U, s)).bind c
        cases b (U, s) with
        | none => rfl
        | some r => exact hfinish' G₃ hG₃ r.1 r.2

theorem Correct.withLets {m : ℕ} {lets : List (Name × Code)} {f : List (String × Value)}
    {G' : ℕ → Value} (hlets : ∀ U s, runSystem I lets (U, G, s) = some (mix f U, G', s))
    (hG' : SameBelow n G G') (hnm : n ≤ m) (h : Correct I m G' o b names)
    (hframes : ∀ x ∈ f.map Prod.fst, Frames b x) :
    Correct I n G { o with systemLets := lets ++ o.systemLets }
      (fun x => (b x).map fun r => (mix f r.1, r.2)) (f.map Prod.fst ++ names) := by
  rcases h with ⟨hfails, hnone⟩ | ⟨f', G₁, hf', hG₁, hsystem, hfinish⟩
  · refine Or.inl ⟨fun U s st hrun G₂ hG₂ U' s' hU' => ?_, fun x => ?_⟩
    · rw [runSystem_append, hlets] at hrun
      exact hfails _ _ st hrun G₂ hG₂ U' s' fun x hx => hU' x (List.mem_append_right _ hx)
    · show (b x).map _ = none
      rw [hnone]
      rfl
  · refine Or.inr ⟨f ++ f', G₁, ?_, hG'.trans hG₁ hnm, fun U s => ?_, fun G₂ hG₂ U s => ?_⟩
    · rw [List.map_append, hf']
    · rw [runSystem_append, hlets, Option.bind_some, hsystem, mix_append]
    · rw [mix_append]
      show o.finish I G₂ (mix f' (mix f U), s) = _
      rw [hfinish G₂ hG₂]
      exact Frames.mix hframes U s

theorem Fails.of_test {t : Test} (hmem : t ∈ o.argTests) (habove : Above n o names)
    (ht : ∀ G', SameBelow n G G' → runTest G' t = false) : Fails I G o names := by
  intro U s st hrun G' hG' U' s' _
  have hsame : SameBelow n G G' := (runSystem_keeps habove.2 hrun).1.trans hG' habove.1
  unfold Output.finish
  refine if_neg fun hall => ?_
  have htrue : runTest G' t = true := List.all_eq_true.mp hall t hmem
  rw [ht G' hsame] at htrue
  cases htrue

end Run

end Xcl.Destructuring
