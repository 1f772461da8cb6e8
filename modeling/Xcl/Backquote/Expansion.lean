import Xcl.Backquote.Model

/-!
# Expansions of templates

* `Flagged.eval`: what a flag and a thing stand for;
* **`expand_eval_iff`**: exactly which expansions evaluate to what their templates stand for.
-/

namespace Xcl.Backquote

-- The equations of these functions are made once, before the lemmas that use them.
section
attribute [local simp] backquotify combine comma
end

variable {ι σ : Type}

/-! ## Flags -/

/-- The meaning of a flag and a thing. -/
def Flagged.eval (run : ι → σ → Option (Object × σ)) (flagged : Flagged ι) (s : σ) :
    Option (Object × σ) :=
  match flagged with
  | nil => some (.nil, s)
  | t object => some (object, s)
  | quote object => some (object, s)
  | comma form => form.eval run s
  | list args => (Form.list args).eval run s
  | listStar first rest => (Form.listStar first rest).eval run s
  | append args => (Form.append args).eval run s
  | nconc args => (Form.nconc args).eval run s
  | vector form => (Form.backq .vector [form]).eval run s

/-- A call of `list*` with one argument. -/
def Flagged.Single (flagged : Flagged ι) : Prop := ∃ first, flagged = .listStar first []

variable (run : ι → σ → Option (Object × σ))

theorem evals_one (form : Form ι) (s : σ) :
    evals run [form] s = (form.eval run s).map fun r => ([r.1], r.2) := by
  change (form.eval run s).bind _ = _
  cases form.eval run s <;> rfl

theorem comma_eval (form : Form ι) (s : σ) : (comma form).eval run s = form.eval run s := by
  cases form with
  | cons x y =>
    change ((x.eval run s).bind fun r => (evals run [y] r.2).bind _) =
      (x.eval run s).bind fun r => (y.eval run r.2).bind _
    refine congrArg _ (funext fun r => ?_)
    rw [evals_one]
    cases y.eval run r.2 <;> rfl
  | _ => rfl

/-- Only calls of `list*` with one argument lose their meaning. -/
theorem backquotify1_eval {flagged : Flagged ι} (h : ¬ flagged.Single) (s : σ) :
    (backquotify1 flagged).eval run s = flagged.eval run s := by
  cases flagged with
  | listStar first rest =>
    match rest with
    | [] => exact absurd ⟨first, rfl⟩ h
    | [y] =>
      change ((first.eval run s).bind fun r => (evals run [y] r.2).bind _).bind _ =
        (first.eval run s).bind fun r => (evals run [y] r.2).bind _
      cases first.eval run s with
      | none => rfl
      | some r =>
        dsimp only [Option.bind_some]
        rw [evals_one]
        cases y.eval run r.2 <;> rfl
    | y :: z :: rest =>
      change ((first.eval run s).bind fun r => (evals run (y :: z :: rest) r.2).bind _).bind _ =
        (first.eval run s).bind fun r => (evals run (y :: z :: rest) r.2).bind _
      cases first.eval run s with
      | none => rfl
      | some r =>
        dsimp only [Option.bind_some]
        cases evals run (y :: z :: rest) r.2 <;> rfl
  | _ => rfl

theorem backquotify1_single {flagged : Flagged ι} (h : flagged.Single) (s : σ) :
    (backquotify1 flagged).eval run s = none := by
  obtain ⟨first, rfl⟩ := h
  change (evals run [first] s).bind _ = none
  rw [evals_one]
  cases first.eval run s <;> rfl

theorem eval_of_constant {a : Flagged ι} {object : Object} (h : a.constant = some object) (s : σ) :
    (backquotify1 a).eval run s = some (object, s) := by
  cases a <;> cases h <;> rfl

theorem listStar_eval (a d : Flagged ι) (hd : ¬ d.Single) (s : σ) :
    (Flagged.listStar (backquotify1 a) [backquotify1 d]).eval run s =
      ((backquotify1 a).eval run s).bind fun r =>
        (d.eval run r.2).map fun r' => (.cons r.1 r'.1, r'.2) := by
  change ((backquotify1 a).eval run s).bind _ = _
  refine congrArg _ (funext fun r => ?_)
  change (evals run [backquotify1 d] r.2).bind _ = _
  rw [evals_one, backquotify1_eval run hd]
  cases d.eval run r.2 <;> rfl

theorem combine_eval (a d : Flagged ι) (s : σ) :
    (combine a d).eval run s = ((backquotify1 a).eval run s).bind fun r =>
      (d.eval run r.2).map fun r' => (.cons r.1 r'.1, r'.2) := by
  cases d with
  | nil =>
    rw [combine]
    cases hconstant : a.constant with
    | some object =>
      rw [eval_of_constant run hconstant]
      rfl
    | none =>
      change (evals run [backquotify1 a] s).bind _ = _
      rw [evals_one]
      cases (backquotify1 a).eval run s <;> rfl
  | quote object' | t object' =>
    rw [combine]
    cases hconstant : a.constant with
    | some object =>
      rw [eval_of_constant run hconstant]
      rfl
    | none => exact listStar_eval run a _ (by rintro ⟨_, h⟩; cases h) s
  | list args =>
    change (((backquotify1 a).eval run s).bind fun r => (evals run args r.2).bind _).bind _ = _
    cases (backquotify1 a).eval run s with
    | none => rfl
    | some r =>
      change ((evals run args r.2).bind _).bind _ = ((evals run args r.2).bind _).map _
      cases evals run args r.2 <;> rfl
  | listStar first rest =>
    change ((backquotify1 a).eval run s).bind _ = _
    refine congrArg _ (funext fun r => ?_)
    change ((first.eval run r.2).bind fun r' => (evals run rest r'.2).bind _).bind _ =
      ((first.eval run r.2).bind fun r' => (evals run rest r'.2).bind _).map _
    cases first.eval run r.2 with
    | none => rfl
    | some r' =>
      dsimp only [Option.bind_some]
      cases evals run rest r'.2 <;> rfl
  | comma | append | nconc | vector =>
    exact listStar_eval run a _ (by rintro ⟨_, h⟩; cases h) s

/-! ## Splices -/

theorem foldr_elements : ∀ {x : Object} {xs : List Object}, elements x = some xs →
    xs.foldr .cons .nil = x
  | .nil, _, h => by
    cases h
    rfl
  | .cons a b, _, h => by
    obtain ⟨ys, hys, rfl⟩ := Option.map_eq_some_iff.mp h
    exact congrArg (Object.cons a) (foldr_elements hys)

theorem replaceEnd_elements (y : Object) : ∀ {x : Object} {xs : List Object},
    elements x = some xs → replaceEnd y x = xs.foldr .cons y
  | .nil, _, h => by
    cases h
    rfl
  | .cons a b, _, h => by
    obtain ⟨ys, hys, rfl⟩ := Option.map_eq_some_iff.mp h
    exact congrArg (Object.cons a) (replaceEnd_elements y hys)

theorem splice_of_elements {x : Object} {xs : List Object} (h : elements x = some xs)
    (y : Object) : splice x y = some (xs.foldr .cons y) := by
  rw [splice, h]
  rfl

theorem appendOf_cons {x : Object} {xs : List Object} (h : elements x = some xs)
    (values : List Object) : appendOf (x :: values) = (appendOf values).bind (splice x) := by
  cases values with
  | nil =>
    change some x = splice x .nil
    rw [splice_of_elements h, foldr_elements h]
  | cons => rfl

theorem nconcTwo_elements {x : Object} {xs : List Object} (h : elements x = some xs)
    (y : Object) : nconcTwo x y = splice x y := by
  rw [splice_of_elements h, ← replaceEnd_elements y h]
  cases x <;> first | rfl | cases h

theorem nconcOf_cons {x : Object} {xs : List Object} (h : elements x = some xs)
    (values : List Object) : nconcOf (x :: values) = (nconcOf values).bind (splice x) := by
  cases values with
  | nil =>
    change some x = splice x .nil
    rw [splice_of_elements h, foldr_elements h]
  | cons y values =>
    change (nconcOf (y :: values)).bind (nconcTwo x) = _
    exact congrArg _ (funext (nconcTwo_elements h))

/-- What follows a spliced form whose value is `x`. -/
def splicing (x : Object) (rest : Option (Object × σ)) : Option (Object × σ) :=
  rest.bind fun r => (splice x r.1).map fun value => (value, r.2)

section

variable {run} {form : Form ι} {s s' : σ} {x : Object} {xs : List Object}
  (hform : form.eval run s = some (x, s')) (hx : elements x = some xs)

include hform

/-- `join` puts the rest of the values behind the elements of the first. -/
theorem joined_eval {join : List Object → Option Object}
    (hjoin : ∀ values, join (x :: values) = (join values).bind (splice x)) (args : List (Form ι)) :
    ((evals run (form :: args) s).bind fun r => (join r.1).bind fun y => some (y, r.2)) =
      splicing x ((evals run args s').bind fun r => (join r.1).bind fun y => some (y, r.2)) := by
  change ((form.eval run s).bind fun r => (evals run args r.2).bind _).bind _ = _
  rw [hform]
  dsimp only [Option.bind_some]
  cases evals run args s' with
  | none => rfl
  | some r =>
    change (join (x :: r.1)).bind _ = splicing x ((join r.1).bind _)
    rw [hjoin]
    cases join r.1 with
    | none => rfl
    | some y =>
      change (splice x y).bind _ = (splice x y).map _
      cases splice x y <;> rfl

include hx

theorem append_eval (args : List (Form ι)) :
    (Flagged.append (form :: args)).eval run s = splicing x ((Flagged.append args).eval run s') :=
  joined_eval hform (appendOf_cons hx) args

theorem nconc_eval (args : List (Form ι)) :
    (Flagged.nconc (form :: args)).eval run s = splicing x ((Flagged.nconc args).eval run s') :=
  joined_eval hform (nconcOf_cons hx) args

end

theorem append_one_eval (last : Form ι) (s : σ) :
    (Flagged.append [last]).eval run s = last.eval run s := by
  change (evals run [last] s).bind _ = _
  rw [evals_one]
  cases last.eval run s <;> rfl

theorem nconc_one_eval (last : Form ι) (s : σ) :
    (Flagged.nconc [last]).eval run s = last.eval run s := by
  change (evals run [last] s).bind _ = _
  rw [evals_one]
  cases last.eval run s <;> rfl

/-! ## Templates -/

namespace Template

/-- The rest of a list that is empty by its text: `NIL`, a comma before `NIL`, or spliced `NIL`s. -/
def Null : Template ι → Prop
  | .atom .nil => True
  | .comma .nil => True
  | .at .nil cdr => cdr.Null
  | .dot .nil cdr => cdr.Null
  | _ => False

section
attribute [local simp] Template.Null
end

/-- A template whose whole text is a comma before `(list* x)`, or such a form spliced before an
empty rest. -/
def Single : Template ι → Prop
  | .comma (.listStar _ []) => True
  | .at (.listStar _ []) cdr => cdr.Null
  | .dot (.listStar _ []) cdr => cdr.Null
  | _ => False

section
attribute [local simp] Template.Single
end

/-- No part of the template that stands alone is single: the contents of a vector, an element of a
list, and what follows a spliced form. The rest of a list after an element may be single. -/
def Inner : Template ι → Prop
  | .atom _ => True
  | .comma _ => True
  | .vector contents => contents.Inner ∧ ¬ contents.Single
  | .cons car cdr => car.Inner ∧ ¬ car.Single ∧ cdr.Inner
  | .at _ cdr => cdr.Inner ∧ ¬ cdr.Single
  | .dot _ cdr => cdr.Inner ∧ ¬ cdr.Single

end Template

theorem comma_eq_nil {form : Form ι} : comma form = .nil ↔ form = .nil := by
  cases form <;> simp [comma]

theorem comma_single {form : Form ι} :
    (comma form).Single ↔ ∃ first, form = .listStar first [] := by
  cases form <;> simp [comma, Flagged.Single]

theorem combine_ne (a d : Flagged ι) : combine a d ≠ .nil ∧ ¬ (combine a d).Single := by
  cases d <;> cases hconstant : a.constant <;> simp [combine, hconstant, Flagged.Single]

theorem backquotify_at_nil {form : Form ι} {cdr : Template ι} (h : backquotify cdr = .nil) :
    backquotify (.at form cdr) = comma form := by
  rw [backquotify, h]

theorem backquotify_dot_nil {form : Form ι} {cdr : Template ι} (h : backquotify cdr = .nil) :
    backquotify (.dot form cdr) = comma form := by
  rw [backquotify, h]

theorem eval_one_rest {build : List (Form ι) → Flagged ι}
    (hone : ∀ (last : Form ι) (s : σ), (build [last]).eval run s = last.eval run s)
    (rest : Flagged ι) :
    (¬ rest.Single → ∀ s : σ, (build [backquotify1 rest]).eval run s = rest.eval run s) ∧
      (rest.Single → ∀ s : σ, (build [backquotify1 rest]).eval run s = none) :=
  ⟨fun hsingle s => by rw [hone, backquotify1_eval run hsingle],
    fun hsingle s => by rw [hone, backquotify1_single run hsingle]⟩

theorem backquotify_at {form : Form ι} {cdr : Template ι} (h : backquotify cdr ≠ .nil) :
    ∃ args, backquotify (.at form cdr) = .append (form :: args) ∧
      (¬ (backquotify cdr).Single → ∀ s : σ,
        (Flagged.append args).eval run s = (backquotify cdr).eval run s) ∧
      ((backquotify cdr).Single → ∀ s : σ, (Flagged.append args).eval run s = none) := by
  have hother := eval_one_rest run (append_one_eval run) (backquotify cdr)
  rw [backquotify]
  cases hcdr : backquotify cdr with
  | nil => exact absurd hcdr h
  | append args => exact ⟨args, rfl, fun _ _ => rfl, fun ⟨_, h⟩ => by cases h⟩
  | _ =>
    rw [hcdr] at hother
    exact ⟨_, rfl, hother⟩

theorem backquotify_dot {form : Form ι} {cdr : Template ι} (h : backquotify cdr ≠ .nil) :
    ∃ args, backquotify (.dot form cdr) = .nconc (form :: args) ∧
      (¬ (backquotify cdr).Single → ∀ s : σ,
        (Flagged.nconc args).eval run s = (backquotify cdr).eval run s) ∧
      ((backquotify cdr).Single → ∀ s : σ, (Flagged.nconc args).eval run s = none) := by
  have hother := eval_one_rest run (nconc_one_eval run) (backquotify cdr)
  rw [backquotify]
  cases hcdr : backquotify cdr with
  | nil => exact absurd hcdr h
  | nconc args => exact ⟨args, rfl, fun _ _ => rfl, fun ⟨_, h⟩ => by cases h⟩
  | _ =>
    rw [hcdr] at hother
    exact ⟨_, rfl, hother⟩

theorem null_splice (form : Form ι) (cdr : Template ι) :
    ((Template.at form cdr).Null ↔ form = .nil ∧ cdr.Null) ∧
      ((Template.dot form cdr).Null ↔ form = .nil ∧ cdr.Null) := by
  cases form <;> simp [Template.Null]

theorem single_splice (form : Form ι) (cdr : Template ι) :
    ((Template.at form cdr).Single ↔ (∃ first, form = .listStar first []) ∧ cdr.Null) ∧
      ((Template.dot form cdr).Single ↔ (∃ first, form = .listStar first []) ∧ cdr.Null) := by
  cases form with
  | listStar first rest => cases rest <;> simp [Template.Single]
  | _ => simp [Template.Single]

theorem splice_ne {cdr : Template ι} (h : backquotify cdr ≠ .nil) (form : Form ι) :
    (backquotify (.at form cdr) ≠ .nil ∧ ¬(backquotify (.at form cdr)).Single) ∧
      backquotify (.dot form cdr) ≠ .nil ∧ ¬(backquotify (.dot form cdr)).Single := by
  rw [backquotify, backquotify]
  cases hcdr : backquotify cdr with
  | nil => exact absurd hcdr h
  | _ => simp [Flagged.Single]

theorem backquotify_eq_nil : ∀ {template : Template ι},
    backquotify template = .nil ↔ template.Null
  | .atom leaf => by
    cases leaf <;> simp [backquotify, Template.Null]
  | .comma form => by
    refine comma_eq_nil.trans ?_
    cases form <;> simp [Template.Null]
  | .vector _ => by
    simp [backquotify, Template.Null]
  | .cons car cdr => by
    simp [backquotify, Template.Null, combine_ne]
  | .at form cdr => by
    rw [(null_splice form cdr).1, ← backquotify_eq_nil]
    by_cases hcdr : backquotify cdr = .nil
    · rw [backquotify_at_nil hcdr, comma_eq_nil]
      exact (and_iff_left hcdr).symm
    · exact iff_of_false (splice_ne hcdr form).1.1 fun h => hcdr h.2
  | .dot form cdr => by
    rw [(null_splice form cdr).2, ← backquotify_eq_nil]
    by_cases hcdr : backquotify cdr = .nil
    · rw [backquotify_dot_nil hcdr, comma_eq_nil]
      exact (and_iff_left hcdr).symm
    · exact iff_of_false (splice_ne hcdr form).2.1 fun h => hcdr h.2

/-- The flag is `LIST*`, with one argument, where the text says so. -/
theorem backquotify_single : ∀ {template : Template ι},
    (backquotify template).Single ↔ template.Single
  | .atom leaf => by
    cases leaf <;> simp [backquotify, Template.Single, Flagged.Single]
  | .comma form => by
    refine comma_single.trans ?_
    cases form with
    | listStar first rest => cases rest <;> simp [Template.Single]
    | _ => simp [Template.Single]
  | .vector _ => by
    simp [backquotify, Template.Single, Flagged.Single]
  | .cons car cdr => by
    simp [backquotify, Template.Single, combine_ne]
  | .at form cdr => by
    rw [(single_splice form cdr).1, ← backquotify_eq_nil]
    by_cases hcdr : backquotify cdr = .nil
    · rw [backquotify_at_nil hcdr, comma_single]
      exact (and_iff_left hcdr).symm
    · exact iff_of_false (splice_ne hcdr form).1.2 fun h => hcdr h.2
  | .dot form cdr => by
    rw [(single_splice form cdr).2, ← backquotify_eq_nil]
    by_cases hcdr : backquotify cdr = .nil
    · rw [backquotify_dot_nil hcdr, comma_single]
      exact (and_iff_left hcdr).symm
    · exact iff_of_false (splice_ne hcdr form).2.2 fun h => hcdr h.2

theorem inner_of_null : ∀ {template : Template ι}, template.Null →
    template.Inner ∧ ¬ template.Single
  | .atom _, _ => ⟨trivial, id⟩
  | .comma form, h => by
    cases form <;> first | exact ⟨trivial, id⟩ | exact h.elim
  | .at form cdr, h => by
    obtain ⟨rfl, hcdr⟩ := (null_splice form cdr).1.mp h
    exact ⟨inner_of_null hcdr, id⟩
  | .dot form cdr, h => by
    obtain ⟨rfl, hcdr⟩ := (null_splice form cdr).2.mp h
    exact ⟨inner_of_null hcdr, id⟩

/-! ## The expansion -/

/-- What evaluation comes to: the result where a condition holds, and an error elsewhere. -/
def Comes (p : Prop) (outcome : Option (Object × σ)) (r : Object × σ) : Prop :=
  (p → outcome = some r) ∧ (¬ p → outcome = none)

theorem comes_alone {template : Template ι} {s : σ} {r : Object × σ}
    (h : Comes template.Inner ((backquotify template).eval run s) r) :
    Comes (template.Inner ∧ ¬ template.Single)
      ((backquotify1 (backquotify template)).eval run s) r := by
  by_cases hsingle : template.Single
  · refine ⟨fun h => absurd hsingle h.2, fun _ => ?_⟩
    exact backquotify1_single run (backquotify_single.mpr hsingle) s
  · rw [backquotify1_eval run (mt backquotify_single.mp hsingle), and_iff_left hsingle]
    exact h

/-- A spliced form: with its value `x`, and what the rest comes to. -/
theorem comes_splice {cdr : Template ι} {s s' : σ} {x y z : Object}
    {xs : List Object} (hx : elements x = some xs) (hz : splice x y = some z)
    (hcdr : Comes cdr.Inner ((backquotify cdr).eval run s) (y, s'))
    {rest : Option (Object × σ)}
    (hrest : ¬ (backquotify cdr).Single → rest = (backquotify cdr).eval run s)
    (hsingle : (backquotify cdr).Single → rest = none) :
    Comes (cdr.Inner ∧ ¬ cdr.Single) (splicing x rest) (z, s') := by
  by_cases h : cdr.Single
  · rw [hsingle (backquotify_single.mpr h)]
    exact ⟨fun hinner => absurd h hinner.2, fun _ => rfl⟩
  · rw [hrest (mt backquotify_single.mp h)]
    refine ⟨fun hinner => ?_, fun hinner => ?_⟩
    · rw [hcdr.1 hinner.1]
      change (splice x y).map _ = _
      rw [hz]
      rfl
    · rw [hcdr.2 fun hcdr => hinner ⟨hcdr, h⟩]
      rfl

theorem comes_last {form : Form ι} {cdr : Template ι} {s s' s'' : σ} {x y z : Object}
    {xs : List Object} (hform : form.eval run s = some (x, s')) (hx : elements x = some xs)
    (hz : splice x y = some z) (hnil : backquotify cdr = .nil)
    (hcdr : Comes cdr.Inner ((backquotify cdr).eval run s') (y, s'')) :
    Comes (cdr.Inner ∧ ¬ cdr.Single) ((comma form).eval run s) (z, s'') := by
  have hinner := inner_of_null (backquotify_eq_nil.mp hnil)
  refine ⟨fun _ => ?_, fun h => absurd hinner h⟩
  have heval := hcdr.1 hinner.1
  rw [hnil] at heval
  cases heval
  rw [splice_of_elements hx, foldr_elements hx] at hz
  cases hz
  rw [comma_eval, hform]

/-- **What an expansion comes to**, where the template stands for `r`. -/
theorem backquotify_comes : ∀ (template : Template ι) (s : σ) (r : Object × σ),
    template.meaning run s = some r →
      Comes template.Inner ((backquotify template).eval run s) r
  | .atom leaf, s, r, h => by
    refine ⟨fun _ => ?_, fun h => absurd trivial h⟩
    rw [← h]
    cases leaf <;> rfl
  | .comma form, s, r, h => by
    refine ⟨fun _ => ?_, fun h => absurd trivial h⟩
    rw [← h]
    exact comma_eval run form s
  | .vector contents, s, r, h => by
    obtain ⟨⟨x, s'⟩, hcontents, h⟩ := Option.bind_eq_some_iff.mp h
    obtain ⟨xs, hx, h⟩ := Option.bind_eq_some_iff.mp h
    cases h
    have hcomes := comes_alone run (backquotify_comes contents s _ hcontents)
    have heval : (backquotify (.vector contents)).eval run s =
        (evals run [backquotify1 (backquotify contents)] s).bind _ := rfl
    rw [evals_one] at heval
    refine ⟨fun hinner => ?_, fun hinner => ?_⟩
    · rw [heval, hcomes.1 hinner]
      change ((elements x).map Object.vector).bind _ = _
      rw [hx]
      rfl
    · rw [heval, hcomes.2 hinner]
      rfl
  | .cons car cdr, s, r, h => by
    obtain ⟨⟨x, s'⟩, hcar, h⟩ := Option.bind_eq_some_iff.mp h
    obtain ⟨⟨y, s''⟩, hcdr, h⟩ := Option.bind_eq_some_iff.mp h
    cases h
    have hcomesCar := comes_alone run (backquotify_comes car s _ hcar)
    have hcomesCdr := backquotify_comes cdr s' _ hcdr
    rw [backquotify, combine_eval]
    refine ⟨fun hinner => ?_, fun hinner => ?_⟩
    · rw [hcomesCar.1 ⟨hinner.1, hinner.2.1⟩]
      dsimp only [Option.bind_some]
      rw [hcomesCdr.1 hinner.2.2]
      rfl
    · by_cases halone : car.Inner ∧ ¬ car.Single
      · rw [hcomesCar.1 halone]
        dsimp only [Option.bind_some]
        rw [hcomesCdr.2 fun h => hinner ⟨halone.1, halone.2, h⟩]
        rfl
      · rw [hcomesCar.2 halone]
        rfl
  | .at form cdr, s, r, h => by
    obtain ⟨⟨x, s'⟩, hform, h⟩ := Option.bind_eq_some_iff.mp h
    obtain ⟨⟨y, s''⟩, hcdr, h⟩ := Option.bind_eq_some_iff.mp h
    obtain ⟨z, hz, h⟩ := Option.bind_eq_some_iff.mp h
    cases h
    obtain ⟨xs, hx, -⟩ := Option.map_eq_some_iff.mp hz
    have hcomes := backquotify_comes cdr s' _ hcdr
    by_cases hnil : backquotify cdr = .nil
    · rw [backquotify_at_nil hnil]
      exact comes_last run hform hx hz hnil hcomes
    · obtain ⟨args, hflag, hrest, hsingle⟩ := @backquotify_at _ _ run form cdr hnil
      rw [hflag, append_eval hform hx]
      exact comes_splice run hx hz hcomes (fun h => hrest h s') (fun h => hsingle h s')
  | .dot form cdr, s, r, h => by
    obtain ⟨⟨x, s'⟩, hform, h⟩ := Option.bind_eq_some_iff.mp h
    obtain ⟨⟨y, s''⟩, hcdr, h⟩ := Option.bind_eq_some_iff.mp h
    obtain ⟨z, hz, h⟩ := Option.bind_eq_some_iff.mp h
    cases h
    obtain ⟨xs, hx, -⟩ := Option.map_eq_some_iff.mp hz
    have hcomes := backquotify_comes cdr s' _ hcdr
    by_cases hnil : backquotify cdr = .nil
    · rw [backquotify_dot_nil hnil]
      exact comes_last run hform hx hz hnil hcomes
    · obtain ⟨args, hflag, hrest, hsingle⟩ := @backquotify_dot _ _ run form cdr hnil
      rw [hflag, nconc_eval hform hx]
      exact comes_splice run hx hz hcomes (fun h => hrest h s') (fun h => hsingle h s')

/-- **Expansions evaluate to what their templates stand for exactly if** no call of `list*` with one
argument stands alone in the template. The final state is that of the forms evaluated once and from
left to right. -/
theorem expand_eval_iff (template : Template ι) (s : σ) (r : Object × σ)
    (h : template.meaning run s = some r) :
    (expand template).eval run s = some r ↔ template.Inner ∧ ¬ template.Single := by
  have hcomes := comes_alone run (backquotify_comes run template s r h)
  refine ⟨fun heval => ?_, hcomes.1⟩
  by_contra hinner
  rw [expand, hcomes.2 hinner] at heval
  cases heval

/-- The template `(a ,@x . ,(list* y z))`, with forms that count their evaluations. -/
theorem expand_eval_iff_splice :
    (expand (.cons (.atom (.symbol 0)) (.at (.other ())
        (.comma (.listStar (.other ()) [.other ()]))))).eval
      (fun _ n => some (.cons (.self n) .nil, n + 1)) 0 =
        some (.cons (.symbol 0) (.cons (.self 0) (.cons (.cons (.self 1) .nil)
          (.cons (.self 2) .nil))), 3) ↔
    (Template.cons (.atom (.symbol 0)) (.at (.other ())
        (.comma (.listStar (.other ()) [.other ()])))).Inner ∧
      ¬ (Template.cons (.atom (.symbol 0)) (.at (.other ())
        (.comma (.listStar (.other ()) [.other ()])))).Single :=
  expand_eval_iff (fun _ n => some (.cons (.self n) .nil, n + 1))
    (.cons (.atom (.symbol 0)) (.at (.other ()) (.comma (.listStar (.other ()) [.other ()])))) 0
    (.cons (.symbol 0) (.cons (.self 0) (.cons (.cons (.self 1) .nil) (.cons (.self 2) .nil))), 3)
    rfl

/-- The expansion of a comma before `(list* x)` is `(backq-cons x)`. -/
theorem not_expand_eval :
    ¬ ∀ (ι σ : Type) (run : ι → σ → Option (Object × σ)) (template : Template ι) (s : σ)
      (r : Object × σ), template.meaning run s = some r →
        (expand template).eval run s = some r := by
  intro h
  cases h Unit Unit (fun _ s => some (.nil, s)) (.comma (.listStar (.other ()) [])) ()
    (.nil, ()) rfl

end Xcl.Backquote
