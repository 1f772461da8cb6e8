import Xcl.Lib.Cancel

/-!
# Merging directories

`merge-pathnames.cpp`: a relative directory is appended to the default directory, and a name and a
`:BACK` directly behind it are taken out of the result, in one pass from its end.

* **`mergedDirectories_iff`**: exactly which directories are merged as they should be.
-/

namespace Xcl.Directories

open Cancel

inductive Component
  | absolute
  | relative
  | string (s : List Char)
  | wild
  | wildInferiors
  | up
  | back
deriving DecidableEq, Repr

/-- `stringp (c) || c == K_wild` -/
def Component.IsName : Component → Prop
  | .string _ | .wild => True
  | _ => False

instance : DecidablePred Component.IsName
  | .string _ | .wild => instDecidableTrue
  | .absolute | .relative | .wildInferiors | .up | .back => instDecidableFalse

/-! ## The function -/

/-- The last loop of `merge_directories`, over the reversed list. -/
def removeBack : List Component → List Component → List Component
  | [], result => result
  | [first], result => first :: result
  | first :: second :: temp, result =>
    if first = .back ∧ second.IsName then removeBack temp result
    else removeBack (second :: temp) (first :: result)

def mergeDirectories (dir defaultDir : List Component) : List Component :=
  match dir with
  | [] => defaultDir
  | .relative :: rest =>
    if defaultDir ≠ [] then removeBack (rest.reverseAux (defaultDir.reverseAux [])) []
    else .relative :: rest
  | dir => dir

/-! ## What it should do -/

/-- A relative directory is appended, and then names cancel with the `:BACK`s behind them until none
is left. -/
def Merged (dir defaultDir result : List Component) : Prop :=
  match dir with
  | [] => result = defaultDir
  | .relative :: rest =>
    defaultDir ≠ [] → Remains Component.IsName (· = .back) (defaultDir ++ rest) result
  | dir => result = dir

/-- A name, then one or more names with a `:BACK` behind each, then another `:BACK`. -/
def Nested (l : List Component) : Prop :=
  ∃ before name names after, name.IsName ∧ names ≠ [] ∧ (∀ x ∈ names, x.IsName) ∧
    l = before ++ name :: (names.flatMap (fun x => [x, .back]) ++ .back :: after)

/-! ## The pass -/

/-- What the pass keeps of the reversed list. -/
def kept : List Component → List Component
  | [] => []
  | [first] => [first]
  | first :: second :: temp =>
    if first = .back ∧ second.IsName then kept temp else first :: kept (second :: temp)

theorem removeBack_eq (temp result : List Component) :
    removeBack temp result = (kept temp).reverse ++ result := by
  fun_induction removeBack temp result with
  | case1 => rfl
  | case2 => rfl
  | case3 result first second temp h ih => rw [ih, kept, if_pos h]
  | case4 result first second temp h ih =>
    rw [ih, kept, if_neg h, List.reverse_cons, List.append_assoc, List.singleton_append]

theorem steps_kept (r suffix : List Component) :
    Relation.ReflTransGen (Step Component.IsName (· = .back)) (r.reverse ++ suffix)
      ((kept r).reverse ++ suffix) := by
  fun_induction kept r generalizing suffix with
  | case1 => exact .refl
  | case2 => exact .refl
  | case3 first second temp h ih =>
    have hstep : Step Component.IsName (· = .back) (temp.reverse ++ second :: first :: suffix)
        (temp.reverse ++ suffix) := .mk _ _ h.2 h.1
    rw [List.reverse_cons, List.reverse_cons, List.append_assoc, List.append_assoc]
    exact (ih suffix).head hstep
  | case4 first second temp h ih =>
    rw [List.reverse_cons (a := first), List.reverse_cons (a := first), List.append_assoc,
      List.append_assoc]
    exact ih (first :: suffix)

/-- Names that were taken out, in the reversed list. -/
def taken (names : List Component) : List Component := names.flatMap fun x => [.back, x]

theorem head?_kept_iff (r : List Component) :
    (∃ name, name.IsName ∧ (kept r).head? = some name) ↔
      ∃ names name rest, (∀ x ∈ names, x.IsName) ∧ name.IsName ∧
        r = taken names ++ name :: rest := by
  fun_induction kept r with
  | case1 => simp
  | case2 first =>
    constructor
    · rintro ⟨name, hname, ⟨⟩⟩
      exact ⟨[], first, [], by simp, hname, rfl⟩
    · rintro ⟨names, name, rest, -, hname, h⟩
      match names with
      | [] =>
        cases h
        exact ⟨first, hname, rfl⟩
      | x :: names => cases h
  | case3 first second temp h ih =>
    obtain ⟨rfl, hsecond⟩ := h
    rw [ih]
    constructor
    · rintro ⟨names, name, rest, hnames, hname, rfl⟩
      exact ⟨second :: names, name, rest, List.forall_mem_cons.mpr ⟨hsecond, hnames⟩, hname, rfl⟩
    · rintro ⟨names, name, rest, hnames, hname, h⟩
      match names with
      | [] =>
        cases h
        exact hname.elim
      | x :: names =>
        cases h
        exact ⟨names, name, rest, (List.forall_mem_cons.mp hnames).2, hname, rfl⟩
  | case4 first second temp h ih =>
    constructor
    · rintro ⟨name, hname, ⟨⟩⟩
      exact ⟨[], first, second :: temp, by simp, hname, rfl⟩
    · rintro ⟨names, name, rest, hnames, hname, heq⟩
      match names with
      | [] =>
        cases heq
        exact ⟨first, hname, rfl⟩
      | x :: names =>
        cases heq
        exact absurd ⟨rfl, (List.forall_mem_cons.mp hnames).1⟩ h

/-- What `Nested` is in the reversed list. -/
def Overlapping (r : List Component) : Prop :=
  ∃ before names name after, name.IsName ∧ names ≠ [] ∧ (∀ x ∈ names, x.IsName) ∧
    r = before ++ .back :: (taken names ++ name :: after)

theorem nested_reverse_iff (r : List Component) : Nested r.reverse ↔ Overlapping r := by
  have hreverse : ∀ names : List Component,
      (names.flatMap fun x => [x, .back]).reverse = taken names.reverse := by
    intro names
    rw [List.reverse_flatMap]
    rfl
  constructor
  · rintro ⟨before, name, names, after, hname, hne, hnames, h⟩
    refine ⟨after.reverse, names.reverse, name, before.reverse, hname, by simpa using hne,
      by simpa using hnames, ?_⟩
    rw [← List.reverse_reverse r, h]
    simp [hreverse]
  · rintro ⟨before, names, name, after, hname, hne, hnames, rfl⟩
    refine ⟨after.reverse, name, names.reverse, before.reverse, hname, by simpa using hne,
      by simpa using hnames, ?_⟩
    rw [← List.reverse_reverse names, ← hreverse]
    simp

theorem not_overlapping_nil : ¬Overlapping [] := by
  rintro ⟨_ | ⟨b, before⟩, names, name, after, -, -, -, h⟩ <;> cases h

theorem overlapping_cons {c : Component} {r : List Component} :
    Overlapping (c :: r) ↔ (c = .back ∧ ∃ names name after, name.IsName ∧ names ≠ [] ∧
      (∀ x ∈ names, x.IsName) ∧ r = taken names ++ name :: after) ∨ Overlapping r := by
  constructor
  · rintro ⟨_ | ⟨b, before⟩, names, name, after, hname, hne, hnames, h⟩
    · cases h
      exact .inl ⟨rfl, names, name, after, hname, hne, hnames, rfl⟩
    · cases h
      exact .inr ⟨before, names, name, after, hname, hne, hnames, rfl⟩
  · rintro (⟨rfl, names, name, after, hname, hne, hnames, rfl⟩ |
      ⟨before, names, name, after, hname, hne, hnames, rfl⟩)
    · exact ⟨[], names, name, after, hname, hne, hnames, rfl⟩
    · exact ⟨c :: before, names, name, after, hname, hne, hnames, rfl⟩

/-- **Nothing more cancels in what the pass keeps** if no `:BACK` meets a name that way. -/
theorem chain_kept_iff (r : List Component) :
    (kept r).reverse.IsChain (Apart Component.IsName (· = .back)) ↔ ¬Overlapping r := by
  rw [List.isChain_reverse]
  fun_induction kept r with
  | case1 => exact iff_of_true .nil not_overlapping_nil
  | case2 first =>
    refine iff_of_true (.singleton _) ?_
    rw [overlapping_cons]
    rintro (⟨-, _ | ⟨x, names⟩, name, after, -, -, -, h⟩ | h)
    · cases h
    · cases h
    · exact not_overlapping_nil h
  | case3 first second temp h ih =>
    obtain ⟨rfl, hsecond⟩ := h
    rw [ih, overlapping_cons, overlapping_cons]
    refine not_congr ⟨fun hover => .inr (.inr hover), ?_⟩
    rintro (⟨-, _ | ⟨x, names⟩, name, after, -, hne, -, heq⟩ | ⟨rfl, -⟩ | hover)
    · exact absurd rfl hne
    · cases heq
      exact hsecond.elim
    · exact hsecond.elim
    · exact hover
  | case4 first second temp h ih =>
    have hhead : (∀ name ∈ (kept (second :: temp)).head?, ¬(name.IsName ∧ first = .back)) ↔
        ¬(first = .back ∧ ∃ names name after, name.IsName ∧ names ≠ [] ∧
          (∀ x ∈ names, x.IsName) ∧ second :: temp = taken names ++ name :: after) := by
      rw [iff_not_comm]
      constructor
      · rintro ⟨rfl, names, name, after, hname, -, hnames, heq⟩ hall
        obtain ⟨kept, hkept, hhead⟩ :=
          (head?_kept_iff _).mpr ⟨names, name, after, hnames, hname, heq⟩
        exact hall kept hhead ⟨hkept, rfl⟩
      · intro hall
        push Not at hall
        obtain ⟨kept, hhead, hkept, rfl⟩ := hall
        obtain ⟨names, name, after, hnames, hname, heq⟩ :=
          (head?_kept_iff _).mp ⟨kept, hkept, hhead⟩
        refine ⟨rfl, names, name, after, hname, ?_, hnames, heq⟩
        rintro rfl
        cases heq
        exact h ⟨rfl, hname⟩
    rw [List.isChain_cons, ih, @overlapping_cons first, not_or]
    exact and_congr_left fun _ => hhead

/-! ## The theorem -/

/-- **What is merged as it should be**: all but the relative directories with which names and
`:BACK`s are nested. -/
theorem mergedDirectories_iff (dir defaultDir : List Component) :
    Merged dir defaultDir (mergeDirectories dir defaultDir) ↔
      ∀ rest, dir = .relative :: rest → defaultDir ≠ [] → ¬Nested (defaultDir ++ rest) := by
  match dir with
  | [] => exact iff_of_true rfl nofun
  | .relative :: rest =>
    have hiff : defaultDir ≠ [] → (Remains Component.IsName (· = .back) (defaultDir ++ rest)
        (mergeDirectories (.relative :: rest) defaultDir) ↔ ¬Nested (defaultDir ++ rest)) := by
      intro hdefault
      have hresult : mergeDirectories (.relative :: rest) defaultDir =
          (kept (defaultDir ++ rest).reverse).reverse := by
        rw [mergeDirectories, if_pos hdefault, removeBack_eq]
        simp [List.reverseAux_eq]
      have hsteps := steps_kept (defaultDir ++ rest).reverse []
      rw [List.reverse_reverse, List.append_nil, List.append_nil] at hsteps
      have hnested := nested_reverse_iff (defaultDir ++ rest).reverse
      rw [List.reverse_reverse] at hnested
      rw [hresult, hnested, ← chain_kept_iff]
      exact ⟨fun h => h.chain, fun h => ⟨hsteps, h⟩⟩
    constructor
    · rintro h _ ⟨⟩ hdefault
      exact (hiff hdefault).mp (h hdefault)
    · intro h hdefault
      exact (hiff hdefault).mpr (h rest rfl hdefault)
  | .absolute :: _ | .string _ :: _ | .wild :: _ | .wildInferiors :: _ | .up :: _ | .back :: _ =>
    exact iff_of_true rfl nofun

/-- `../..`, as two `:BACK`s, from `/a/b`. -/
theorem not_merged_twoBack :
    ¬Merged [.relative, .back, .back] [.absolute, .string ['a'], .string ['b']]
      (mergeDirectories [.relative, .back, .back]
        [.absolute, .string ['a'], .string ['b']]) := by
  intro h
  have hdisjoint : ∀ x : Component, x.IsName → ¬x = .back := by
    rintro x hx rfl
    exact hx
  have hreduce := (remains_iff hdisjoint).mp (h (by simp))
  revert hreduce
  decide

end Xcl.Directories
