import Xcl.Lib.Cancel
import Xcl.Pathname.Model

/-!
# The parts of a namestring
-/

namespace Xcl.Pathnames

open Cancel

variable {s l r f d : Text} {c : Char} {i : ℕ}

/-! ## The last index of a character -/

theorem lastIndexOf_of_not_mem (h : c ∉ s) : lastIndexOf c s = none := by
  induction s with
  | nil => rfl
  | cons x s ih =>
    rw [List.mem_cons, not_or] at h
    rw [lastIndexOf, ih h.2]
    exact if_neg (Ne.symm h.1)

theorem lastIndexOf_append (h : c ∉ r) : lastIndexOf c (l ++ c :: r) = some l.length := by
  induction l with
  | nil =>
    rw [List.nil_append, lastIndexOf, lastIndexOf_of_not_mem h]
    exact if_pos rfl
  | cons x l ih =>
    rw [List.cons_append, lastIndexOf, ih]
    rfl

theorem last_cases (c : Char) (s : Text) : c ∉ s ∨ ∃ l r, s = l ++ c :: r ∧ c ∉ r := by
  by_cases h : c ∈ s
  · obtain ⟨r, l, hs, hr⟩ := List.eq_append_cons_of_mem (List.mem_reverse.mpr h)
    refine .inr ⟨l.reverse, r.reverse, ?_, fun hc => hr (List.mem_reverse.mp hc)⟩
    rw [← List.reverse_reverse s, hs]
    simp
  · exact .inl h

theorem take_drop_append (c : Char) (l r : Text) :
    (l ++ c :: r).take (l.length + 1) = l ++ [c] ∧ (l ++ c :: r).drop (l.length + 1) = r := by
  have happend : l ++ c :: r = (l ++ [c]) ++ r := by simp
  have hlength : l.length + 1 = (l ++ [c]).length := by simp
  rw [happend, hlength]
  exact ⟨List.take_left, List.drop_left⟩

/-! ## The directory part and the rest -/

theorem splitDirectory_of_not_mem (h : '/' ∉ s) : splitDirectory s = (none, s) := by
  rw [splitDirectory, lastIndexOf_of_not_mem h]

theorem splitDirectory_append (hr : '/' ∉ r) (hne : r ≠ ['.', '.']) :
    splitDirectory (l ++ '/' :: r) = (some (l ++ ['/']), r) := by
  obtain ⟨htake, hdrop⟩ := take_drop_append '/' l r
  rw [splitDirectory, lastIndexOf_append hr]
  simp only [htake, hdrop, if_neg hne]

theorem splitDirectory_up :
    splitDirectory (l ++ ['/', '.', '.']) = (some (l ++ ['/', '.', '.']), []) := by
  obtain ⟨htake, hdrop⟩ := take_drop_append '/' l ['.', '.']
  rw [splitDirectory, lastIndexOf_append (by decide)]
  simp only [htake, hdrop, if_true, List.append_assoc, List.cons_append, List.nil_append]

theorem splitDirectory_none (h : splitDirectory s = (none, f)) : s = f ∧ '/' ∉ s := by
  rcases last_cases '/' s with hs | ⟨l, r, rfl, hr⟩
  · rw [splitDirectory_of_not_mem hs] at h
    cases h
    exact ⟨rfl, hs⟩
  · by_cases hup : r = ['.', '.']
    · rw [hup, splitDirectory_up] at h
      cases h
    · rw [splitDirectory_append hr hup] at h
      cases h

/-- With a directory part, the rest is not `..` and the part is not empty. -/
theorem splitDirectory_some (h : splitDirectory s = (some d, f)) :
    '/' ∉ f ∧ f ≠ ['.', '.'] ∧ (d.head? = some '/' ↔ s.head? = some '/') := by
  rcases last_cases '/' s with hs | ⟨l, r, rfl, hr⟩
  · rw [splitDirectory_of_not_mem hs] at h
    cases h
  · by_cases hup : r = ['.', '.']
    · subst hup
      rw [splitDirectory_up] at h
      cases h
      exact ⟨by decide, by decide, Iff.rfl⟩
    · rw [splitDirectory_append hr hup] at h
      cases h
      refine ⟨hr, hup, ?_⟩
      cases l <;> simp

/-! ## Name and type -/

theorem component_some (n : Text) :
    component (some n) = if n = ['*'] then .wild else .string n := rfl

theorem nameText_component (o : Option Text) :
    Pathname.nameText (component o) = o.getD [] := by
  cases o with
  | none => rfl
  | some n =>
    rw [component_some]
    split_ifs with hn
    · exact hn.symm
    · rfl

theorem component_ne_nil (n : Text) : component (some n) ≠ .nil := by
  rw [component_some]
  split_ifs <;> simp

/-- **Name and type are written as they were read.** -/
theorem nameText_splitName (s : Text) :
    Pathname.nameText (splitName s).1 ++ Pathname.typeText (splitName s).2 = s := by
  unfold splitName
  by_cases hdot : s.head? = some '.'
  · rw [if_pos hdot]
    exact List.append_nil s
  · rw [if_neg hdot]
    have hwhole : Pathname.nameText (component (if s = [] then none else some s)) = s := by
      rw [nameText_component]
      split_ifs with hs
      · exact hs.symm
      · rfl
    rcases last_cases '.' s with hs | ⟨l, r, rfl, hr⟩
    · rw [lastIndexOf_of_not_mem hs]
      exact (List.append_nil _).trans hwhole
    · rw [lastIndexOf_append hr]
      cases l with
      | nil => exact absurd rfl hdot
      | cons x l =>
        have hdrop := (take_drop_append '.' (x :: l) r).2
        have htake : (x :: l ++ '.' :: r).take (x :: l).length = x :: l := List.take_left
        rw [List.length_cons] at htake hdrop ⊢
        change Pathname.nameText (component (some ((x :: l ++ '.' :: r).take (l.length + 1)))) ++
          Pathname.typeText (component (some ((x :: l ++ '.' :: r).drop (l.length + 2)))) = _
        rw [htake, hdrop, nameText_component, Pathname.typeText, if_neg (component_ne_nil r),
          nameText_component]
        rfl

theorem splitName_eq_nil (h : (splitName s).1 = .nil) : (splitName s).2 = .nil := by
  revert h
  unfold splitName
  split_ifs with hdot hs
  · simp
  · cases lastIndexOf '.' s with
    | none => simp
    | some i => cases i <;> simp [component_ne_nil]
  · cases lastIndexOf '.' s with
    | none => simp
    | some i => cases i <;> simp [component_ne_nil]

/-! ## Components -/

/-- A component that `..` cancels. -/
def Ordinary (token : Text) : Prop := token ≠ ['*'] ∧ token ≠ ['*', '*'] ∧ token ≠ ['.', '.']

def Up (token : Text) : Prop := token = ['.', '.']

instance : DecidablePred Ordinary := fun _ => inferInstanceAs (Decidable (_ ∧ _ ∧ _))

instance : DecidablePred Up := fun _ => inferInstanceAs (Decidable (_ = _))

theorem Ordinary.not_up {token : Text} (h : Ordinary token) : ¬ Up token := h.2.2

/-- What is left of the components when each `..` has cancelled an ordinary one before it. -/
abbrev kept (ts : List Text) : List Text := reduce Ordinary Up ts

def componentOf (token : Text) : Value :=
  if token = ['*'] then .wild
  else if token = ['*', '*'] then .wildInferiors
  else if token = ['.', '.'] then .up
  else .string token

variable {token : Text} {ts st : List Text} {k : Value}

theorem componentOf_up (h : Up token) : componentOf token = .up := by
  subst h
  rfl

theorem componentOf_ordinary (h : Ordinary token) : componentOf token = .string token := by
  rw [componentOf, if_neg h.1, if_neg h.2.1, if_neg h.2.2]

theorem componentOf_eq_string {x : Text} (h : componentOf token = .string x) : Ordinary token := by
  unfold componentOf at h
  split_ifs at h with h1 h2 h3
  exact ⟨h1, h2, h3⟩

theorem pushToken_of_not_up {result : List Value} (h : ¬ Up token) :
    pushToken result token = componentOf token :: result := by
  have hne : token ≠ ['.', '.'] := h
  unfold pushToken componentOf
  rw [if_neg hne, if_neg hne]
  split_ifs <;> rfl

theorem pushToken_up {result : List Value} {v : Value} (hv : ∀ x, v ≠ .string x) (h : Up token) :
    pushToken (v :: result) token = .up :: v :: result := by
  subst h
  cases v with
  | string x => exact absurd rfl (hv x)
  | nil | absolute | relative | up | wild | wildInferiors | other => rfl

/-- The list of components is a stack on which `..` cancels an ordinary component. -/
theorem pushToken_map (hk : ∀ x, k ≠ .string x) :
    pushToken (st.map componentOf ++ [k]) token =
      (push Ordinary Up st token).map componentOf ++ [k] := by
  by_cases hup : Up token
  · cases st with
    | nil =>
      have hpush : push Ordinary Up [] token = [token] := rfl
      rw [hpush, List.map_singleton, componentOf_up hup]
      exact pushToken_up hk hup
    | cons x st =>
      by_cases hx : Ordinary x
      · rw [push_of_opens hx hup, List.map_cons, componentOf_ordinary hx]
        subst hup
        rfl
      · have hpush : push Ordinary Up (x :: st) token = token :: x :: st :=
          if_neg fun h => hx h.1
        rw [hpush, List.map_cons, List.map_cons, componentOf_up hup]
        exact pushToken_up (fun y hy => hx (componentOf_eq_string hy)) hup
  · rw [push_of_not_closes hup, List.map_cons]
    exact pushToken_of_not_up hup

theorem foldl_pushToken (hk : ∀ x, k ≠ .string x) (ts st : List Text) :
    ts.foldl pushToken (st.map componentOf ++ [k]) =
      (ts.foldl (push Ordinary Up) st).map componentOf ++ [k] := by
  induction ts generalizing st with
  | nil => rfl
  | cons t ts ih => rw [List.foldl_cons, List.foldl_cons, pushToken_map hk, ih]

/-- The list that `parse_directory` makes, behind its first component. -/
theorem reverse_foldl_pushToken (hk : ∀ x, k ≠ .string x) (ts : List Text) :
    (ts.foldl pushToken [k]).reverse = k :: (kept ts).map componentOf := by
  have hfold := foldl_pushToken hk ts []
  rw [List.map_nil, List.nil_append] at hfold
  rw [hfold, kept, reduce, List.map_reverse, List.reverse_append]
  rfl

theorem parseDirectory_relative (h : s.head? ≠ some '/') :
    parseDirectory s = .relative :: (kept (tokens s)).map componentOf := by
  have hne : s ≠ ['/'] := fun hs => h (by rw [hs]; rfl)
  rw [parseDirectory, if_neg hne, if_neg h]
  exact reverse_foldl_pushToken (fun x hx => by cases hx) _

theorem parseDirectory_absolute (s : Text) :
    parseDirectory ('/' :: s) = .absolute :: (kept (tokens s)).map componentOf := by
  cases s with
  | nil => rfl
  | cons c s =>
    rw [parseDirectory, if_neg (by simp), if_pos List.head?_cons]
    exact reverse_foldl_pushToken (fun x hx => by cases hx) _

theorem head?_parseDirectory (s : Text) :
    (parseDirectory s).head? = some .absolute ↔ s.head? = some '/' := by
  by_cases h : s.head? = some '/'
  · obtain ⟨s, rfl⟩ : ∃ t, s = '/' :: t := List.head?_eq_some_iff.mp h
    simp [parseDirectory_absolute]
  · simp [parseDirectory_relative h, h]

/-! ## Tokens -/

theorem not_mem_of_mem_tokens {t : Text} (h : t ∈ tokens s) : '/' ∉ t := by
  induction s generalizing t with
  | nil => cases h
  | cons c s ih =>
    unfold tokens at h
    by_cases hc : c = '/'
    · rw [if_pos hc] at h
      rcases List.mem_cons.mp h with rfl | h
      · exact List.not_mem_nil
      · exact ih h
    · rw [if_neg hc] at h
      cases hts : tokens s with
      | nil =>
        rw [hts] at h
        obtain rfl := List.mem_singleton.mp h
        exact fun h => hc (List.mem_singleton.mp h).symm
      | cons u ts =>
        rw [hts] at h ih
        rcases List.mem_cons.mp h with rfl | h
        · rw [List.mem_cons, not_or]
          exact ⟨Ne.symm hc, ih List.mem_cons_self⟩
        · exact ih (List.mem_cons_of_mem _ h)

theorem tokens_append (ht : '/' ∉ token) (s : Text) :
    tokens (token ++ '/' :: s) = token :: tokens s := by
  induction token with
  | nil => rfl
  | cons c token ih =>
    rw [List.mem_cons, not_or] at ht
    rw [List.cons_append, tokens, if_neg (Ne.symm ht.1), ih ht.2]

/-- Components as a namestring has them, with a separator behind each. -/
def lines (ts : List Text) : Text := ts.flatMap (· ++ ['/'])

@[simp] theorem lines_nil : lines [] = [] := rfl

@[simp] theorem lines_cons : lines (token :: ts) = token ++ '/' :: lines ts := by
  simp [lines]

theorem tokens_lines_append (h : ∀ t ∈ ts, '/' ∉ t) (s : Text) :
    tokens (lines ts ++ s) = ts ++ tokens s := by
  induction ts with
  | nil => rfl
  | cons t ts ih =>
    rw [List.forall_mem_cons] at h
    rw [lines_cons, List.append_assoc, List.cons_append, tokens_append h.1, ih h.2]
    rfl

theorem tokens_lines (h : ∀ t ∈ ts, '/' ∉ t) : tokens (lines ts) = ts := by
  have happend := tokens_lines_append h []
  rwa [List.append_nil, tokens, List.append_nil] at happend

theorem lines_tokens (l : Text) : lines (tokens (l ++ ['/'])) = l ++ ['/'] := by
  induction l with
  | nil => rfl
  | cons c l ih =>
    rw [List.cons_append, tokens]
    by_cases hc : c = '/'
    · rw [if_pos hc, lines_cons, ih, hc]
      rfl
    · rw [if_neg hc]
      cases hts : tokens (l ++ ['/']) with
      | nil =>
        rw [hts] at ih
        simp at ih
      | cons u ts =>
        rw [hts, lines_cons] at ih
        rw [lines_cons, List.cons_append, ih]

/-! ## The components written -/

section Write

variable {prin1 : Value → Text} {p : Pathname}

theorem componentText_componentOf (token : Text) :
    p.componentText prin1 (componentOf token) = .ok token := by
  unfold componentOf
  split_ifs with h1 h2 h3
  · rw [h1]; rfl
  · rw [h2]; rfl
  · rw [h3]; rfl
  · rfl

theorem componentsText_map (ts : List Text) :
    p.componentsText prin1 (ts.map componentOf) = .ok (lines ts) := by
  induction ts with
  | nil => rfl
  | cons t ts ih =>
    rw [List.map_cons, Pathname.componentsText, componentText_componentOf, ih, lines_cons]
    rfl

end Write

theorem componentOf_injective : Function.Injective componentOf := fun t u h => by
  have ht : Pathname.componentText (fun _ => []) {} (componentOf t) = .ok t :=
    componentText_componentOf t
  rw [h, componentText_componentOf] at ht
  exact (Except.ok.inj ht).symm

end Xcl.Pathnames
