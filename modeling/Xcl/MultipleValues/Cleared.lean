import Xcl.MultipleValues.Model

/-!
# Multiple values do not leak

* `Cleared`: the buffer is cleared under a condition;
* **`values_do_not_leak`**: in a run whose `GO`s do not carry values to a `TAGBODY` that does not
  clear them, single-valued forms leave the buffer cleared, and a body returns the values of its
  final form only.
-/

namespace Xcl.MultipleValues

open Structured

variable {acc clears : String → Bool} {q q' : Prop}

/-! ## Assertions -/

/-- No `GO` so far carried values to a `TAGBODY` that does not clear them. -/
def Clean (s : State) : Prop := ∀ u ∈ s.gos, u = true

/-- The buffer is cleared if `q` holds. -/
def Cleared (q : Prop) (s : State) : Prop := Clean s → q → s.values = none

/-- What the target of a jump relies on: `acc` has the blocks whose `RETURN-FROM`s are all
single-valued. -/
def Demands (acc clears : String → Bool) : Label → Prop
  | .exit name => acc name = true
  | .tag name => clears name = false

abbrev Holds (acc clears : String → Bool) (P : State → Prop) (c : Emitted) (N : State → Prop) :
    Prop :=
  Triple machine (fun _ => True) P c N fun l => Cleared (Demands acc clears l)

/-- Code that leaves a cleared buffer cleared, if it is single-valued. -/
def Keeps (acc clears : String → Bool) (single : Bool) (c : Emitted) : Prop :=
  ∀ q : Prop, Holds acc clears (Cleared q) c (Cleared (q ∧ single = true))

theorem Cleared.mono {s : State} (h : Cleared q s) (hq : q' → q) : Cleared q' s :=
  fun hclean hq' => h hclean (hq hq')

theorem Holds.weaken {p p' : Prop} {c : Emitted} (h : Holds acc clears (Cleared p) c (Cleared q))
    (hp : p → p') (hq : q' → q) : Holds acc clears (Cleared p') c (Cleared q') :=
  h.mono (fun _ hs => hs.mono hp) (fun _ hs => hs.mono hq) (fun _ _ hj => hj)

theorem Keeps.weaken {single single' : Bool} {c : Emitted} (h : Keeps acc clears single c)
    (hle : single' = true → single = true) : Keeps acc clears single' c :=
  fun q => (h q).weaken id fun hq => ⟨hq.1, hle hq.2⟩

/-! ## Instructions -/

theorem holds_load (a : Atom) (target : Bool) :
    Holds acc clears (Cleared q) (if target then .instr (.load a) else .skip) (Cleared q) := by
  cases target with
  | false => exact triple_skip
  | true => exact triple_instr fun s _ h => ⟨trivial, h⟩

theorem holds_clear {P : State → Prop} : Holds acc clears P (.instr .clear) (Cleared q) :=
  triple_instr fun _ _ _ => ⟨trivial, fun _ _ => rfl⟩

/-- `emit-clear-values` unless the buffer is known to be cleared. -/
theorem holds_emitClearWhen (must : Bool) :
    Holds acc clears (Cleared (q ∧ must = false)) (emitClearWhen must) (Cleared q) := by
  cases must with
  | false => exact Holds.weaken triple_skip id fun hq => ⟨hq, rfl⟩
  | true => exact holds_clear

theorem holds_clear_unless (single : Bool) :
    Holds acc clears (Cleared (q ∧ single = true)) (emitClearWhen (!single)) (Cleared q) :=
  (holds_emitClearWhen (!single)).weaken (fun h => ⟨h.1, by simpa using h.2⟩) id

theorem holds_call (op : Op) :
    Holds acc clears (Cleared q) (.instr (.call op)) (Cleared (q ∧ op.single = true)) := by
  refine triple_instr fun s _ h => ⟨trivial, fun hclean hq => ?_⟩
  have hvalues : s.values = none := h hclean hq.1
  show callValues op s = none
  simp [callValues, hq.2, hvalues]

theorem holds_go (tag : String) {N : State → Prop} :
    Holds acc clears (Cleared q) (.seq (.instr (.go (clears tag))) (.jmp (.tag tag))) N := by
  refine triple_seq (triple_instr fun s _ _ => ⟨trivial, ?_⟩) triple_jmp
  intro hclean hclears
  have hgo : (clears tag || s.values.isNone) = true := hclean _ List.mem_cons_self
  have hfalse : clears tag = false := hclears
  rw [hfalse, Bool.false_or, Option.isNone_iff_eq_none] at hgo
  exact hgo

theorem keeps_ifCode {test consequent alternate : Emitted} {single₁ single₂ single₃ : Bool}
    (h₁ : Keeps acc clears single₁ test) (h₂ : Keeps acc clears single₂ consequent)
    (h₃ : Keeps acc clears single₃ alternate) :
    Keeps acc clears (single₂ && single₃) (ifCode test single₁ consequent alternate) := by
  intro q
  refine triple_seq (h₁ q) (triple_seq (holds_clear_unless single₁) ?_)
  refine triple_branch (fun _ _ h => ⟨trivial, h⟩) ?_ ?_
  · exact h₂.weaken (fun h => (Bool.and_eq_true_iff.mp h).1) q
  · exact h₃.weaken (fun h => (Bool.and_eq_true_iff.mp h).2) q

/-! ## Return forms -/

mutual

/-- In a block that `acc` has, the `RETURN-FROM`s are all single-valued. -/
def Node.Covered (acc : String → Bool) : Node → Prop
  | .atom _ => True
  | .setq value => value.Covered acc
  | .cond test consequent alternate =>
    test.Covered acc ∧ consequent.Covered acc ∧ alternate.Covered acc
  | .progn body => body.Covered acc
  | .letNode initforms body => initforms.Covered acc ∧ body.Covered acc
  | .block name returns body =>
    body.Covered (Function.update acc name (everySingleValuedP returns))
  | .returnFrom name result =>
    (acc name = true → singleValuedP result = true) ∧ result.Covered acc
  | .tagbody items => items.Covered acc
  | .go _ => True
  | .trulyThe expr => expr.Covered acc
  | .call _ args => args.Covered acc

def Nodes.Covered (acc : String → Bool) : Nodes → Prop
  | .nil => True
  | .cons first rest => first.Covered acc ∧ rest.Covered acc

def NodeItems.Covered (acc : String → Bool) : NodeItems → Prop
  | .nil => True
  | .tag _ rest => rest.Covered acc
  | .form node rest => node.Covered acc ∧ rest.Covered acc

end

/-- The return forms of the blocks in `acc` are single-valued. -/
def Returns.Ok (acc : String → Bool) (rs : Returns) : Prop :=
  ∀ r ∈ rs, acc r.1 = true → singleValuedP r.2 = true

theorem Returns.Ok.left {rs rs' : Returns} (h : Returns.Ok acc (rs ++ rs')) : Returns.Ok acc rs :=
  fun r hr => h r (List.mem_append_left rs' hr)

theorem Returns.Ok.right {rs rs' : Returns} (h : Returns.Ok acc (rs ++ rs')) :
    Returns.Ok acc rs' :=
  fun r hr => h r (List.mem_append_right rs hr)

theorem singleValuedP_of_every : ∀ {nodes : List Node} {node : Node},
    everySingleValuedP (.ofList nodes) = true → node ∈ nodes → singleValuedP node = true
  | first :: rest, node, h, hmem => by
    rw [Nodes.ofList, everySingleValuedP, Bool.and_eq_true_iff] at h
    rcases List.mem_cons.mp hmem with rfl | hmem
    · exact h.1
    · exact singleValuedP_of_every h.2 hmem

theorem Returns.Ok.block {rs : Returns} {name : String}
    (h : Returns.Ok acc (rs.filter (·.1 ≠ name))) :
    Returns.Ok (Function.update acc name
      (everySingleValuedP (.ofList ((rs.filter (·.1 = name)).map Prod.snd)))) rs := by
  intro r hr hacc
  by_cases hname : r.1 = name
  · rw [hname, Function.update_self] at hacc
    refine singleValuedP_of_every hacc (List.mem_map_of_mem ?_)
    exact List.mem_filter.mpr ⟨hr, by simpa using hname⟩
  · rw [Function.update_of_ne hname] at hacc
    exact h r (List.mem_filter.mpr ⟨hr, by simpa using hname⟩) hacc

theorem covered_variables : ∀ args : Nodes, args.variables.Covered acc
  | .nil => trivial
  | .cons _ rest => ⟨trivial, covered_variables rest⟩

theorem covered_callNode {isUnsafe : Bool} {op : Op} {args : Nodes} (h : args.Covered acc) :
    (callNode isUnsafe op args).Covered acc := by
  cases isUnsafe with
  | false => exact h
  | true => exact ⟨h, covered_variables args, trivial⟩

theorem covered_theNode {isUnsafe : Bool} {check : TypeCheck} {expr : Node}
    (h : expr.Covered acc) : (theNode isUnsafe check expr).Covered acc := by
  cases check with
  | skip => exact h
  | trust => exact h
  | progn => exact ⟨h, trivial⟩
  | require op => exact @covered_callNode acc isUnsafe op _ ⟨h, trivial⟩
  | test predicate error =>
    exact ⟨⟨h, trivial⟩, ⟨⟨⟨trivial, trivial⟩, trivial⟩, ⟨trivial, trivial, trivial⟩, trivial⟩,
      trivial, trivial⟩

theorem p1_returnFrom (name : String) (result : Form) :
    p1 (.returnFrom name result) = p1 result ∨
      p1 (.returnFrom name result) = (.returnFrom name (p1 result).1,
        (name, .returnFrom name (p1 result).1) :: (p1 result).2) := by
  cases result with
  | returnFrom name' result' => exact Or.inl rfl
  | _ => exact Or.inr rfl

mutual

theorem covered_p1 : ∀ (form : Form) {acc : String → Bool}, Returns.Ok acc (p1 form).2 →
    (p1 form).1.Covered acc
  | .atom _, _, _ => trivial
  | .setq value, _, h => covered_p1 value h
  | .cond test consequent alternate, acc, h => by
    rw [p1] at h ⊢
    simp only at h ⊢
    split at h
    · rename_i hunsafe
      rw [if_pos hunsafe]
      split at h
      · rename_i hleaves
        rw [if_pos hleaves]
        exact covered_p1 test h
      · rename_i hleaves
        rw [if_neg hleaves]
        exact ⟨⟨covered_p1 test h.left.left, trivial⟩,
          ⟨trivial, covered_p1 consequent h.left.right, covered_p1 alternate h.right⟩, trivial⟩
    · rename_i hunsafe
      rw [if_neg hunsafe]
      exact ⟨covered_p1 test h.left.left, covered_p1 consequent h.left.right,
        covered_p1 alternate h.right⟩
  | .progn body, _, h => covered_p1Body body h
  | .letForm initforms body, _, h =>
    ⟨covered_p1Body initforms h.left, covered_p1Body body h.right⟩
  | .block _ body, _, h => covered_p1Body body h.block
  | .returnFrom name result, acc, h => by
    rcases p1_returnFrom name result with heq | heq
    · rw [heq] at h ⊢
      exact covered_p1 result h
    · rw [heq] at h ⊢
      refine ⟨fun hacc => ?_, covered_p1 result fun r hr => h r (List.mem_cons_of_mem _ hr)⟩
      exact h _ List.mem_cons_self hacc
  | .tagbody items, _, h => covered_p1Items items true h
  | .go _, _, _ => trivial
  | .the _ expr, _, h => covered_theNode (covered_p1 expr h)
  | .call _ args, _, h => covered_callNode (covered_p1Body args h)

theorem covered_p1Body : ∀ (forms : Forms) {acc : String → Bool}, Returns.Ok acc (p1Body forms).2 →
    (p1Body forms).1.Covered acc
  | .nil, _, _ => trivial
  | .cons first rest, _, h => ⟨covered_p1 first h.left, covered_p1Body rest h.right⟩

theorem covered_p1Items : ∀ (items : Items) (live : Bool) {acc : String → Bool},
    Returns.Ok acc (p1Items items live).2 → (p1Items items live).1.Covered acc
  | .nil, _, _, _ => trivial
  | .tag _ rest, _, _, h => covered_p1Items rest true h
  | .form form rest, live, acc, h => by
    cases live with
    | true => exact ⟨covered_p1 form h.left, covered_p1Items rest (!form.leaves) h.right⟩
    | false => exact covered_p1Items rest false h

end

/-! ## Code of forms -/

theorem labels_p2Items (fast : Bool) (clears : String → Bool) : ∀ items : NodeItems,
    (p2Items fast items clears).labels = items.tags.map Label.tag
  | .nil => rfl
  | .tag name rest => by
    rw [p2Items, Sections.labels, labels_p2Items fast clears rest, NodeItems.tags, List.map_cons]
  | .form _ rest => by
    rw [p2Items, Sections.labels, labels_p2Items fast clears rest, NodeItems.tags]

theorem Cleared.exit {name : String} {single single' : Bool} {l : Label} {s : State}
    (h : Cleared (Demands (Function.update acc name single) clears l) s) :
    if l = .exit name then Cleared (q ∧ (single && single') = true) s
      else Cleared (Demands acc clears l) s := by
  split
  · rename_i hl
    rw [hl] at h
    refine h.mono fun hq => ?_
    show Function.update acc name single name = true
    rw [Function.update_self]
    exact (Bool.and_eq_true_iff.mp hq.2).1
  · rename_i hl
    refine h.mono fun hd => ?_
    cases l with
    | tag tag => exact hd
    | exit name' =>
      have hne : name' ≠ name := fun he => hl (by rw [he])
      show Function.update acc name single name' = true
      rw [Function.update_of_ne hne]
      exact hd

theorem Cleared.tag {fast : Bool} {items : NodeItems} {l : Label} {s : State}
    (h : Cleared (Demands acc (pushTags items clears) l) s) :
    if l ∈ (p2Items fast items (pushTags items clears)).labels then
      Cleared (q ∧ items.singleValued = true) s
    else Cleared (Demands acc clears l) s := by
  rw [labels_p2Items]
  split
  · rename_i hl
    obtain ⟨tag, htag, rfl⟩ := List.mem_map.mp hl
    refine h.mono fun hq => ?_
    show pushTags items clears tag = false
    rw [pushTags, if_pos htag, hq.2]
    rfl
  · rename_i hl
    refine h.mono fun hd => ?_
    cases l with
    | exit name => exact hd
    | tag tag =>
      have htag : tag ∉ items.tags := fun htag => hl (List.mem_map_of_mem htag)
      show pushTags items clears tag = false
      rw [pushTags, if_neg htag]
      exact hd

section

variable {fast : Bool}

theorem every_of_not_must {args : Nodes} (h : (!fast || !everySingleValuedP args) = false) :
    everySingleValuedP args = true := by
  rw [Bool.or_eq_false_iff] at h
  simpa using h.2

mutual

theorem keeps_p2 : ∀ (node : Node) {acc clears : String → Bool} (target : Bool),
    node.Covered acc → Keeps acc clears (singleValuedP node) (p2 fast node clears target)
  | .atom a, _, _, target, _ => fun _ => (holds_load a target).weaken id fun h => h.1
  | .setq value, _, _, _, h => fun q =>
    triple_seq (keeps_p2 value true h q)
      ((holds_clear_unless _).weaken id fun hq => hq.1)
  | .cond test consequent alternate, acc, clears, target, ⟨h₁, h₂, h₃⟩ => by
    have ha := @keeps_p2 consequent acc clears target h₂
    have hb := @keeps_p2 alternate acc clears target h₃
    have htest := @keeps_p2 test acc clears true h₁
    have hleft : Keeps acc clears (singleValuedP consequent && singleValuedP alternate)
        (p2 fast consequent clears target) := ha.weaken fun h => (Bool.and_eq_true_iff.mp h).1
    have hright : Keeps acc clears (singleValuedP consequent && singleValuedP alternate)
        (p2 fast alternate clears target) := hb.weaken fun h => (Bool.and_eq_true_iff.mp h).2
    have hdefault := keeps_ifCode htest ha hb
    cases test with
    | atom a =>
      cases a with
      | t => exact hleft
      | nil => exact hright
      | other => exact hdefault
    | call op args =>
      match args with
      | .nil => exact hdefault
      | .cons _ (.cons _ _) => exact hdefault
      | .cons arg .nil =>
        have hnot := keeps_ifCode (@keeps_p2 arg acc clears true h₁.1) hb ha
        rw [Bool.and_comm] at hnot
        obtain ⟨single, negates⟩ := op
        cases arg with
        | atom a =>
          cases a with
          | t => cases negates with
            | false => exact hdefault
            | true => exact hright
          | nil => cases negates with
            | false => exact hdefault
            | true => exact hleft
          | other => cases negates with
            | false => exact hdefault
            | true => exact hnot
        | _ => cases negates with
          | false => exact hdefault
          | true => exact hnot
    | _ => exact hdefault
  | .progn body, _, _, target, h => fun q =>
    (holds_p2PrognBody body false target h q).weaken (fun hq => hq.1) id
  | .letNode initforms body, _, _, target, h => fun q =>
    triple_seq (holds_p2Args initforms h.1 q) (triple_seq (holds_clear_unless _)
      ((holds_p2PrognBody body false target h.2 q).weaken (fun hq => hq.1) id))
  | .block name returns body, _, _, _, h => fun q =>
    triple_label ((holds_p2PrognBody body false true h q).mono
      (fun _ hs => hs.mono fun hq => hq.1)
      (fun _ hs => hs.mono fun hq => ⟨hq.1, (Bool.and_eq_true_iff.mp hq.2).2⟩)
      (fun _ _ hs => hs.exit))
  | .returnFrom name result, _, _, _, h => fun _ =>
    triple_seq (holds_clear (q := True)) (triple_seq (keeps_p2 result true h.2 True)
      (triple_jmp.mono (fun _ hs => hs.mono fun hacc => ⟨trivial, h.1 hacc⟩) (fun _ hs => hs)
        (fun _ _ hs => hs)))
  | .tagbody items, _, _, target, h => fun q =>
    triple_seq
      (Holds.weaken (triple_sections (all_p2Items items h fun hq => hq)) (fun hq => hq.1) id)
      (triple_seq (holds_clear_unless _) ((holds_load .nil target).weaken id fun hq => hq.1))
  | .go tag, _, _, _, _ => fun _ => holds_go tag
  | .trulyThe expr, _, _, target, h => keeps_p2 expr target h
  | .call op args, _, _, _, h => fun q =>
    triple_seq (holds_p2Args args h q) (triple_seq
      ((holds_emitClearWhen _).weaken (fun hq => ⟨hq.1, every_of_not_must hq.2⟩) id)
      (holds_call op))

theorem holds_p2PrognBody : ∀ (body : Nodes) {acc clears : String → Bool} (must target : Bool),
    body.Covered acc → ∀ q : Prop, Holds acc clears (Cleared (q ∧ must = false))
      (p2PrognBody fast body must clears target) (Cleared (q ∧ lastSingleValuedP body = true))
  | .nil, _, _, must, target, _, q =>
    triple_seq (holds_emitClearWhen must) ((holds_load .nil target).weaken id fun hq => hq.1)
  | .cons first .nil, _, _, must, target, h, q =>
    triple_seq (holds_emitClearWhen must) (keeps_p2 first target h.1 q)
  | .cons first (.cons second rest), _, _, must, target, h, q =>
    triple_seq (keeps_p2 first false h.1 (q ∧ must = false))
      ((holds_p2PrognBody (.cons second rest) (must || !singleValuedP first) target h.2 q).weaken
        (fun hq => by simpa [and_assoc] using hq) id)

theorem holds_p2Args : ∀ (args : Nodes) {acc clears : String → Bool}, args.Covered acc →
    ∀ q : Prop, Holds acc clears (Cleared q) (p2Args fast args clears)
      (Cleared (q ∧ everySingleValuedP args = true))
  | .nil, _, _, _, _ => Holds.weaken triple_skip id fun hq => hq.1
  | .cons first rest, _, _, h, q =>
    triple_seq (keeps_p2 first true h.1 q)
      ((holds_p2Args rest h.2 (q ∧ singleValuedP first = true)).weaken id fun hq =>
        ⟨⟨hq.1, (Bool.and_eq_true_iff.mp hq.2).1⟩, (Bool.and_eq_true_iff.mp hq.2).2⟩)

/-- The sections of a `TAGBODY`; `rest` is a part of its items. -/
theorem all_p2Items : ∀ (rest : NodeItems) {items : NodeItems} {acc clears : String → Bool}
    {q : Prop}, rest.Covered acc →
    (items.singleValued = true → rest.singleValued = true) →
    (p2Items fast rest (pushTags items clears)).All fun c =>
      Triple machine (fun _ => True) (Cleared (q ∧ items.singleValued = true)) c
        (Cleared (q ∧ items.singleValued = true)) fun l s =>
          if l ∈ (p2Items fast items (pushTags items clears)).labels then
            Cleared (q ∧ items.singleValued = true) s
          else Cleared (Demands acc clears l) s
  | .nil, _, _, _, _, _, _ => trivial
  | .tag _ rest, _, _, _, _, h, hsingle => all_p2Items rest h hsingle
  | .form node rest, items, _, _, q, h, hsingle => by
    refine ⟨?_, all_p2Items rest h.2 fun hi => (Bool.and_eq_true_iff.mp (hsingle hi)).2⟩
    refine (keeps_p2 node false h.1 (q ∧ items.singleValued = true)).mono (fun _ hs => hs)
      (fun _ hs => hs.mono fun hq => ?_) (fun _ _ hs => hs.tag)
    exact ⟨hq, (Bool.and_eq_true_iff.mp (hsingle hq.2)).1⟩

end

/-! ## Bodies -/

theorem not_clean_exec (i : Instr) (s : State) (h : ¬ Clean s) : ¬ Clean (exec i s) := by
  cases i with
  | go carries => exact fun hc => h fun u hu => hc u (List.mem_cons_of_mem _ hu)
  | _ => exact h

theorem clean_of_run {n : ℕ} {c : Emitted} {s s' : State} {o : Outcome Label}
    (hrun : run machine n c s = (o, s')) (h : Clean s') : Clean s := by
  by_contra hclean
  have hkeeps := run_keeps (m := machine) not_clean_exec (fun _ hs => hs) n c hclean
  rw [hrun] at hkeeps
  exact hkeeps h

theorem cleared_emitClearWhen {must : Bool} {n : ℕ} {s s₁ : State}
    (hs : Cleared (must = false) s)
    (hrun : run machine n (emitClearWhen must) s = (.normal, s₁)) : Cleared True s₁ :=
  (@holds_emitClearWhen (fun _ => false) (fun _ => false) True must).normal trivial
    (hs.mono fun h => h.2) hrun

theorem final_p2PrognBody (acc clears : String → Bool) (target : Bool) {s' : State}
    (hclean : Clean s') : ∀ (body : Nodes) (must : Bool) {n : ℕ} {s : State}, body.Covered acc →
    Cleared (must = false) s →
    run machine n (p2PrognBody fast body must clears target) s = (.normal, s') →
    ∃ k s₁, s₁.values = none ∧ run machine k (p2 fast body.last clears target) s₁ = (.normal, s')
  | .nil, must, _, _, _, hs, hrun => by
    obtain ⟨k, s₁, h₁, h₂⟩ := run_seq_normal hrun
    exact ⟨k, s₁, cleared_emitClearWhen hs h₁ (clean_of_run h₂ hclean) trivial, h₂⟩
  | .cons first .nil, must, _, _, _, hs, hrun => by
    obtain ⟨k, s₁, h₁, h₂⟩ := run_seq_normal hrun
    exact ⟨k, s₁, cleared_emitClearWhen hs h₁ (clean_of_run h₂ hclean) trivial, h₂⟩
  | .cons first (.cons second rest), must, _, _, h, hs, hrun => by
    obtain ⟨k, s₁, h₁, h₂⟩ := run_seq_normal hrun
    have hfirst := (keeps_p2 first false h.1 (must = false)).normal trivial hs h₁
    exact final_p2PrognBody acc clears target hclean (.cons second rest) _ h.2
      (hfirst.mono fun hq => by simpa using hq) h₂

/-- The body of a `PROGN` or a `LET`. -/
def Node.body : Node → Option Nodes
  | .progn body => some body
  | .letNode _ body => some body
  | _ => none

/-- A `PROGN` or `LET` returns the values of its final form, which runs with a cleared buffer. -/
theorem final_body {node : Node} {body : Nodes} {target : Bool} {n : ℕ} {s s' : State}
    (hbody : node.body = some body) (h : node.Covered acc) (hs : s.values = none)
    (hrun : run machine n (p2 fast node clears target) s = (.normal, s')) (hclean : Clean s') :
    ∃ k s₁, s₁.values = none ∧
      run machine k (p2 fast body.last clears target) s₁ = (.normal, s') := by
  cases node with
  | progn body' =>
    cases hbody
    exact final_p2PrognBody acc clears target hclean body false h (fun _ _ => hs) hrun
  | letNode initforms body' =>
    cases hbody
    obtain ⟨k, s₁, h₁, hrest⟩ := run_seq_normal hrun
    obtain ⟨k', s₂, h₂, h₃⟩ := run_seq_normal hrest
    have hinit := (holds_p2Args initforms h.1 True).normal trivial (fun _ _ => hs) h₁
    have hclear := cleared_emitClearWhen (hinit.mono fun hq => ⟨trivial, by simpa using hq⟩) h₂
    exact final_p2PrognBody acc clears target hclean body false h.2
      (fun hc _ => hclear hc trivial) h₃
  | _ => cases hbody

theorem results_tagbody {items : NodeItems} {n : ℕ} {s s' : State}
    (hrun : run machine n (p2 fast (.tagbody items) clears true) s = (.normal, s')) :
    s'.rax = 0 := by
  obtain ⟨k, s₁, -, hrest⟩ := run_seq_normal hrun
  obtain ⟨k', s₂, -, hload⟩ := run_seq_normal hrest
  cases k' with
  | zero => cases hload
  | succ k' =>
    cases hload
    rfl

end

/-- In a run whose `GO`s do not carry values to a `TAGBODY` that does not clear them, a
single-valued form leaves the buffer cleared, a body returns the values of its final form only,
and a `TAGBODY` returns `NIL`. -/
theorem values_do_not_leak (fast : Bool) (form : Form) (clears : String → Bool) (target : Bool)
    (n : ℕ) (s s' : State) (hs : s.values = none)
    (hrun : run machine n (p2 fast (p1 form).1 clears target) s = (.normal, s'))
    (hgos : ∀ u ∈ s'.gos, u = true) :
    (singleValuedP (p1 form).1 = true → s'.values = none) ∧
      (∀ body, (p1 form).1.body = some body → ∃ k s₁, s₁.values = none ∧
        run machine k (p2 fast body.last clears target) s₁ = (.normal, s')) ∧
      (∀ items, (p1 form).1 = .tagbody items → target = true → s'.results = [0]) := by
  have hcovered : (p1 form).1.Covered fun _ => false := covered_p1 form fun _ _ h => by cases h
  have hsingle : singleValuedP (p1 form).1 = true → s'.values = none := fun h =>
    (keeps_p2 (p1 form).1 target hcovered True).normal trivial (fun _ _ => hs) hrun hgos
      ⟨trivial, h⟩
  refine ⟨hsingle, fun body hbody => final_body hbody hcovered hs hrun hgos, ?_⟩
  intro items hitems htarget
  rw [hitems] at hsingle
  rw [hitems, htarget] at hrun
  rw [State.results, hsingle rfl, results_tagbody hrun]
  rfl

/-- `(progn (setq x (f)) (tagbody (if y (go a)) (f) a) (f))`, where `f` returns several values. -/
def sampleForm : Form :=
  .progn (.cons (.setq (.call ⟨false, false⟩ .nil)) (.cons
    (.tagbody (.form (.cond (.atom .other) (.go "A") (.atom .nil))
      (.form (.call ⟨false, false⟩ .nil) (.tag "A" .nil))))
    (.cons (.call ⟨false, false⟩ .nil) .nil)))

/-- The state of a thread with a cleared buffer. -/
def start (inputs : ℕ → ℕ) : State := ⟨0, none, inputs, 0, []⟩

theorem values_do_not_leak_sampleForm :
    ∃ k s₁, s₁.values = none ∧
      run machine k (p2 true (.call ⟨false, false⟩ .nil) (fun _ => false) true) s₁ =
        (.normal, (run machine 20 (p2 true (p1 sampleForm).1 (fun _ => false) true)
          (start fun _ => 2)).2) :=
  (values_do_not_leak true sampleForm (fun _ => false) true 20 (start fun _ => 2) _ rfl rfl
    (by decide)).2.1 _ rfl

/-- `(progn (tagbody (progn (f) (go a) x) a) t)`: the `PROGN` is single-valued, and returns the
values of `f`. -/
theorem values_leak :
    ¬ (∀ (fast : Bool) (form : Form) (clears : String → Bool) (target : Bool) (n : ℕ)
      (s s' : State), s.values = none →
      run machine n (p2 fast (p1 form).1 clears target) s = (.normal, s') →
      singleValuedP (p1 form).1 = true → s'.values = none) := by
  intro h
  have hleak := h true
    (.progn (.cons (.tagbody (.form (.progn (.cons (.call ⟨false, false⟩ .nil)
      (.cons (.go "A") (.cons (.atom .other) .nil)))) (.tag "A" .nil))) (.cons (.atom .t) .nil)))
    (fun _ => false) true 20 (start fun _ => 3) _ rfl rfl rfl
  cases hleak

end Xcl.MultipleValues
