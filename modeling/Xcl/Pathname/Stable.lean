import Xcl.Pathname.Parts

/-!
# When a namestring is stable

* `stable_iff`, **`stable_iff_of_not_tilde`**.
-/

namespace Xcl.Pathnames

open Cancel

variable {prin1 : Value → Text} {home : Option Text} {s t f d o : Text} {ts os out : List Text}
  {directory : List Value}

/-! ## The texts written -/

theorem lines_append (ts os : List Text) : lines (ts ++ os) = lines ts ++ lines os :=
  List.flatMap_append

theorem lines_eq_append (h : ts ≠ []) : ∃ l, lines ts = l ++ ['/'] := by
  obtain ⟨ts, t, rfl⟩ := List.eq_nil_or_concat' ts |>.resolve_left h
  exact ⟨lines ts ++ t, by simp [lines_append]⟩

theorem splitDirectory_lines (hts : ts ≠ []) (hf : '/' ∉ f) (hne : f ≠ ['.', '.']) :
    splitDirectory (lines ts ++ f) = (some (lines ts), f) := by
  obtain ⟨l, hl⟩ := lines_eq_append hts
  have happend : lines ts ++ f = l ++ '/' :: f := by simp [hl]
  rw [happend, splitDirectory_append hf hne, hl]

theorem head?_lines (ho : '/' ∉ o) : (lines (o :: os) ++ f).head? = some '/' ↔ o = [] := by
  cases o with
  | nil => simp
  | cons c o =>
    rw [List.mem_cons, not_or] at ho
    simpa using Ne.symm ho.1

theorem lines_append_eq {u : Text} (hu : '/' ∉ u) :
    lines (o :: os) ++ f = u ++ ['/'] ↔ o = u ∧ os = [] ∧ f = [] := by
  constructor
  · intro h
    rw [lines_cons, List.append_assoc, List.cons_append] at h
    have hinj := (List.append_cons_inj_of_notMem hu List.not_mem_nil).mp h.symm
    have hnil : lines os ++ f = [] := hinj.2.2.symm
    rw [List.append_eq_nil_iff] at hnil
    refine ⟨hinj.1.symm, ?_, hnil.2⟩
    cases os with
    | nil => rfl
    | cons t os => simp at hnil
  · rintro ⟨rfl, rfl, rfl⟩
    simp

/-- What `directory_namestring` makes of a directory that was read. -/
def written (d : Text) : Text :=
  if d.head? = some '/' then lines ([] :: kept (tokens d.tail))
  else if kept (tokens d) = [] then lines [['.']]
  else lines (kept (tokens d))

theorem directoryNamestring_parseDirectory {p : Pathname} (h : p.directory = parseDirectory d) :
    p.directoryNamestring prin1 = .ok (written d) := by
  unfold Pathname.directoryNamestring written
  rw [h]
  by_cases hd : d.head? = some '/'
  · obtain ⟨d, rfl⟩ : ∃ t, d = '/' :: t := List.head?_eq_some_iff.mp hd
    rw [if_pos hd, parseDirectory_absolute]
    dsimp only
    rw [componentsText_map]
    rfl
  · rw [if_neg hd, parseDirectory_relative hd]
    dsimp only
    rw [componentsText_map]
    cases hout : kept (tokens d) with
    | nil => rfl
    | cons o os => rfl

/-! ## Reading -/

/-- The namestrings that the constructor reads apart. -/
def Special (s : Text) : Prop :=
  s = ['.'] ∨ s = ['.', '/'] ∨ s = ['.', '.'] ∨ s = ['.', '.', '/']

/-- `t` is read as the directory and the rest. -/
def Reads (home : Option Text) (t : Text) (directory : List Value) (f : Text) : Prop :=
  let r := Pathname.ofNamestring home t
  r.directory = directory ∧ r.name = (splitName f).1 ∧ r.type = (splitName f).2 ∧ r.version = .nil

theorem ofNamestring_of_not_special (h : ¬ Special s) :
    Pathname.ofNamestring home s = .ofText (expandHome home s) := by
  have hs : ¬ (s = ['.'] ∨ s = ['.', '/']) := fun hs => h (hs.imp_right .inl)
  have hup : ¬ (s = ['.', '.'] ∨ s = ['.', '.', '/']) := fun hs => h (.inr (.inr hs))
  rw [Pathname.ofNamestring, if_neg hs, if_neg hup]

theorem stable_iff_reads (hs : ¬ Special s) {od : Option Text}
    (hsplit : splitDirectory (expandHome home s) = (od, f)) :
    Stable prin1 home s ↔
      Reads home ((od.map written).getD [] ++ f) ((od.map parseDirectory).getD []) f := by
  have hp : Pathname.ofNamestring home s = .ofText (expandHome home s) :=
    ofNamestring_of_not_special hs
  have hwritten : (Pathname.ofComponents .nil .nil ((od.map parseDirectory).getD [])
      (splitName f).1 (splitName f).2 .nil).namestring prin1 =
        .ok (some ((od.map written).getD [] ++ f)) := by
    have hd : (Pathname.ofComponents .nil .nil ((od.map parseDirectory).getD [])
        (splitName f).1 (splitName f).2 .nil).directoryNamestring prin1 =
          .ok ((od.map written).getD []) := by
      cases od with
      | none => rfl
      | some d => exact directoryNamestring_parseDirectory rfl
    have hname : ¬ ((splitName f).1 = .nil ∧ (splitName f).2 ≠ .nil) := fun h =>
      h.2 (splitName_eq_nil h.1)
    have hfile := nameText_splitName f
    unfold Pathname.namestring
    rw [hd]
    change (if (splitName f).1 = .nil ∧ (splitName f).2 ≠ .nil then _ else _) = _
    rw [if_neg hname]
    change Except.ok (some (((od.map written).getD [] ++ Pathname.nameText (splitName f).1) ++
      Pathname.typeText (splitName f).2)) = _
    rw [List.append_assoc, hfile]
  unfold Stable Reads
  rw [hp, Pathname.ofText, hsplit]
  dsimp only
  rw [hwritten]
  constructor
  · rintro ⟨t, ht, hr⟩
    cases ht
    exact hr
  · exact fun hr => ⟨_, rfl, hr⟩

theorem reads_iff (ht : ¬ Special t) (hsplit : splitDirectory (expandHome home t) = (some d, f)) :
    Reads home t directory f ↔ parseDirectory d = directory := by
  unfold Reads
  rw [ofNamestring_of_not_special ht, Pathname.ofText, hsplit]
  exact ⟨fun h => h.1, fun h => ⟨h, rfl, rfl, rfl⟩⟩

theorem special_lines :
    Special (lines (o :: os) ++ f) ↔ (o = ['.'] ∨ o = ['.', '.']) ∧ os = [] ∧ f = [] := by
  have hmem : '/' ∈ lines (o :: os) ++ f := by simp
  have hdot : lines (o :: os) ++ f ≠ ['.'] := fun h => absurd (h ▸ hmem) (by decide)
  have hdots : lines (o :: os) ++ f ≠ ['.', '.'] := fun h =>
    absurd (h ▸ hmem) (by decide)
  have h1 : lines (o :: os) ++ f = ['.', '/'] ↔ o = ['.'] ∧ os = [] ∧ f = [] :=
    lines_append_eq (u := ['.']) (by decide)
  have h2 : lines (o :: os) ++ f = ['.', '.', '/'] ↔ o = ['.', '.'] ∧ os = [] ∧ f = [] :=
    lines_append_eq (u := ['.', '.']) (by decide)
  unfold Special
  rw [h1, h2]
  simp only [hdot, hdots, false_or]
  tauto

theorem expandHome_of_not_tilde (h : s.head? ≠ some '~') : expandHome home s = s :=
  if_neg fun hs => h hs.1

theorem expandHome_lines (ho : '/' ∉ o) (hne : o ≠ ['~']) :
    expandHome home (lines (o :: os) ++ f) = lines (o :: os) ++ f := by
  refine if_neg fun ⟨hhead, hsep⟩ => hne ?_
  cases o with
  | nil => simp at hhead
  | cons c o =>
    have hc : c = '~' := by simpa using hhead
    subst hc
    rcases hsep with hlength | hsep
    · simp at hlength
    · cases o with
      | nil => rfl
      | cons x o =>
        have hx : x = '/' := by simpa using hsep
        simp [hx] at ho

theorem expandHome_tilde {h : Text} (hne : h ≠ []) :
    expandHome (some h) (lines (['~'] :: os) ++ f) = withSeparator h ++ (lines os ++ f) := by
  unfold expandHome
  rw [if_pos ⟨rfl, .inr rfl⟩]
  dsimp only
  rw [if_neg hne]
  rfl

theorem expandHome_of_no_home (h : home = none ∨ home = some []) : expandHome home s = s := by
  unfold expandHome
  rcases h with rfl | rfl
  · exact ite_self s
  · exact ite_self s

theorem withSeparator_eq (h : Text) :
    tokens (withSeparator h) ≠ [] ∧ lines (tokens (withSeparator h)) = withSeparator h := by
  have hl : ∃ l, withSeparator h = l ++ ['/'] := by
    unfold withSeparator
    split_ifs with hlast
    · exact ⟨h.dropLast, (List.dropLast_append_getLast? '/' hlast).symm⟩
    · exact ⟨h, rfl⟩
  obtain ⟨l, hl⟩ := hl
  rw [hl, lines_tokens]
  refine ⟨fun hnil => ?_, rfl⟩
  have hlines := lines_tokens l
  rw [hnil] at hlines
  simp at hlines

theorem head?_withSeparator {h : Text} (hne : h ≠ []) : (withSeparator h).head? = h.head? := by
  unfold withSeparator
  split_ifs with hlast
  · rfl
  · exact List.head?_append_of_ne_nil _ hne

/-! ## The directories that are read back -/

theorem reads_absolute (hf : '/' ∉ f) (hne : f ≠ ['.', '.']) (hts : ∀ t ∈ ts, '/' ∉ t)
    (hchain : ts.IsChain (Apart Ordinary Up)) :
    Reads home (lines ([] :: ts) ++ f) (.absolute :: ts.map componentOf) f := by
  have hspecial : ¬ Special (lines ([] :: ts) ++ f) := fun h => by
    simpa using (special_lines.mp h).1
  have hsplit := splitDirectory_lines (List.cons_ne_nil [] ts) hf hne
  rw [reads_iff hspecial (by rwa [expandHome_lines (by simp) (by simp)]), lines_cons,
    List.nil_append, parseDirectory_absolute, tokens_lines hts, kept, reduce_of_chain hchain]

theorem reads_dot (hf : '/' ∉ f) (hne : f ≠ ['.', '.']) :
    Reads home (lines [['.']] ++ f) [.relative] f ↔ f = [] := by
  by_cases hnil : f = []
  · subst hnil
    exact iff_of_true ⟨rfl, rfl, rfl, rfl⟩ rfl
  · have hspecial : ¬ Special (lines [['.']] ++ f) := fun h => hnil (special_lines.mp h).2.2
    have hsplit := splitDirectory_lines (List.cons_ne_nil ['.'] []) hf hne
    rw [reads_iff hspecial (by rwa [expandHome_lines (by decide) (by decide)])]
    exact iff_of_false (by decide) hnil

theorem parseDirectory_lines (ho : o ≠ []) (hts : ∀ t ∈ o :: os, '/' ∉ t) :
    parseDirectory (lines (o :: os)) = .relative :: (kept (o :: os)).map componentOf := by
  have hhead : (lines (o :: os)).head? ≠ some '/' := fun h => by
    have happend : (lines (o :: os) ++ []).head? = some '/' ↔ o = [] :=
      head?_lines (hts o List.mem_cons_self)
    rw [List.append_nil] at happend
    exact ho (happend.mp h)
  rw [parseDirectory_relative hhead, tokens_lines hts]

theorem parseDirectory_home {h : Text} (hnil : h ≠ []) (hts : ∀ t ∈ os, '/' ∉ t)
    (hchain : (['~'] :: os).IsChain (Apart Ordinary Up)) :
    parseDirectory (lines (tokens (withSeparator h) ++ os)) =
        .relative :: (['~'] :: os).map componentOf ↔
      h.head? ≠ some '/' ∧ kept (tokens (withSeparator h)) = [['~']] := by
  obtain ⟨hne, hlines⟩ := withSeparator_eq h
  obtain ⟨w, ws, hw⟩ := List.exists_cons_of_ne_nil hne
  have hhead := head?_withSeparator hnil
  have hall : ∀ t ∈ tokens (withSeparator h) ++ os, '/' ∉ t := fun t ht =>
    (List.mem_append.mp ht).elim not_mem_of_mem_tokens (hts t)
  have hstart : (lines (tokens (withSeparator h) ++ os)).head? = h.head? := by
    rw [lines_append, hlines, ← hhead]
    refine List.head?_append_of_ne_nil _ fun hempty => hnil ?_
    rw [hempty] at hhead
    exact List.head?_eq_none_iff.mp hhead.symm
  by_cases habs : h.head? = some '/'
  · refine iff_of_false (fun heq => ?_) fun hr => hr.1 habs
    have := (head?_parseDirectory _).mpr (hstart.trans habs)
    rw [heq] at this
    cases this
  · have hkept := reduce_append (l := tokens (withSeparator h)) (by decide : Ordinary ['~']) hchain
    have hkept' : kept (tokens (withSeparator h) ++ os) = kept (tokens (withSeparator h)) ++ os :=
      hkept
    rw [parseDirectory_relative (by rw [hstart]; exact habs), tokens_lines hall, hkept',
      and_iff_right habs, List.cons.injEq, and_iff_right rfl, componentOf_injective.list_map.eq_iff]
    have hinj : kept (tokens (withSeparator h)) ++ os = [['~']] ++ os ↔
        kept (tokens (withSeparator h)) = [['~']] := List.append_left_inj os
    exact hinj

theorem reads_cons (hf : '/' ∉ f) (hne : f ≠ ['.', '.']) (hts : ∀ t ∈ o :: os, '/' ∉ t)
    (hchain : (o :: os).IsChain (Apart Ordinary Up)) :
    Reads home (lines (o :: os) ++ f) (.relative :: (o :: os).map componentOf) f ↔
      (o :: os = [['.']] → f ≠ []) ∧ o ≠ [] ∧
        (o = ['~'] → ∀ h, home = some h → h = [] ∨
          h.head? ≠ some '/' ∧ kept (tokens (withSeparator h)) = [['~']]) := by
  have ho : '/' ∉ o := hts o List.mem_cons_self
  have hkept : kept (o :: os) = o :: os := reduce_of_chain hchain
  have hsplit := splitDirectory_lines (List.cons_ne_nil o os) hf hne
  by_cases hnil : o = []
  · subst hnil
    have hspecial : ¬ Special (lines ([] :: os) ++ f) := fun h => by
      simpa using (special_lines.mp h).1
    rw [reads_iff hspecial (by rwa [expandHome_lines ho (by simp)]), lines_cons, List.nil_append,
      parseDirectory_absolute]
    exact iff_of_false (fun h => by cases h) fun h => h.2.1 rfl
  by_cases hspecial : Special (lines (o :: os) ++ f)
  · obtain ⟨rfl | rfl, rfl, rfl⟩ := special_lines.mp hspecial
    · refine iff_of_false (fun h => ?_) fun h => h.1 rfl rfl
      cases h.1
    · refine iff_of_true ⟨rfl, rfl, rfl, rfl⟩ ⟨fun h => ?_, by decide, fun h => ?_⟩
      · exact absurd h (by decide)
      · exact absurd h (by decide)
  have hdot : o :: os = [['.']] → f ≠ [] := fun h hf => by
    cases h
    exact hspecial (special_lines.mpr ⟨.inl rfl, rfl, hf⟩)
  rw [and_iff_right hdot, and_iff_right hnil]
  by_cases htilde : o = ['~']
  · subst htilde
    rw [forall_prop_of_true rfl]
    by_cases hhome : home = none ∨ home = some []
    · rw [reads_iff hspecial (by rwa [expandHome_of_no_home hhome]), parseDirectory_lines hnil hts,
        hkept]
      refine iff_of_true rfl fun h hh => .inl ?_
      rcases hhome with rfl | rfl
      · cases hh
      · exact (Option.some.inj hh).symm
    · cases home with
      | none => exact absurd (.inl rfl) hhome
      | some h =>
        have hh : h ≠ [] := fun hh => hhome (.inr (congrArg some hh))
        obtain ⟨hts', hlines⟩ := withSeparator_eq h
        have hsplit' : splitDirectory (lines (tokens (withSeparator h) ++ os) ++ f) = _ :=
          splitDirectory_lines (List.append_ne_nil_of_left_ne_nil hts' os) hf hne
        have hexpand : expandHome (some h) (lines (['~'] :: os) ++ f) =
            lines (tokens (withSeparator h) ++ os) ++ f := by
          rw [expandHome_tilde hh, lines_append, hlines, List.append_assoc]
        rw [reads_iff hspecial (by rwa [hexpand]), parseDirectory_home hh
          (fun t ht => hts t (List.mem_cons_of_mem _ ht)) hchain]
        constructor
        · rintro hback h' hh'
          cases hh'
          exact .inr hback
        · exact fun hall => (hall h rfl).resolve_left hh
  · rw [reads_iff hspecial (by rwa [expandHome_lines ho htilde]), parseDirectory_lines hnil hts,
      hkept]
    exact iff_of_true rfl fun h => absurd h htilde

/-! ## The condition -/

theorem remains_tokens {ts : List Text} : Remains Ordinary Up ts out ↔ kept ts = out :=
  remains_iff fun _ h => h.not_up

/-- Of the components of a relative directory part, when each `..` has cancelled an ordinary one
before it: there are some if a name follows; they are not a single `.` unless a name follows; the
first is not empty; and if the first is `~`, it is not replaced, or by itself. -/
def Stays (home : Option Text) (s : Text) : Prop :=
  ∀ d f out, splitDirectory s = (some d, f) → d.head? ≠ some '/' →
    Remains Ordinary Up (tokens d) out →
      (out = [] → f = []) ∧ (out = [['.']] → f ≠ []) ∧ out.head? ≠ some [] ∧
        (out.head? = some ['~'] → ∀ h, home = some h → h = [] ∨
          h.head? ≠ some '/' ∧ Remains Ordinary Up (tokens (withSeparator h)) [['~']])

theorem stays_of_none {s : Text} (hsplit : splitDirectory s = (none, f)) : Stays home s :=
  fun d f out h => by
    rw [hsplit] at h
    cases h

theorem stays_some (hsplit : splitDirectory s = (some d, f)) (hd : d.head? ≠ some '/') :
    Stays home s ↔
      (kept (tokens d) = [] → f = []) ∧ (kept (tokens d) = [['.']] → f ≠ []) ∧
        (kept (tokens d)).head? ≠ some [] ∧
          ((kept (tokens d)).head? = some ['~'] → ∀ h, home = some h → h = [] ∨
            h.head? ≠ some '/' ∧ kept (tokens (withSeparator h)) = [['~']]) := by
  constructor
  · intro h
    have hstays := h d f _ hsplit hd (remains_tokens.mpr rfl)
    simp only [remains_tokens] at hstays
    exact hstays
  · intro h d' f' out hsplit' _ hout
    rw [hsplit] at hsplit'
    cases hsplit'
    simp only [remains_tokens] at hout ⊢
    subst hout
    exact h

theorem expandHome_of_not_mem (hmem : '/' ∉ expandHome home s) : expandHome home s = s := by
  unfold expandHome at hmem ⊢
  split_ifs at hmem ⊢ with hs
  · cases home with
    | none => rfl
    | some h =>
      dsimp only at hmem ⊢
      split_ifs at hmem ⊢ with hh
      · rfl
      · obtain ⟨hne, hlines⟩ := withSeparator_eq h
        obtain ⟨l, hl⟩ := lines_eq_append hne
        rw [← hlines, hl] at hmem
        simp at hmem
  · rfl

theorem stable_of_special (h : Special s) :
    Stable prin1 home s ↔ s = ['.', '/'] ∨ Stays home s := by
  have hstable : Stable prin1 home s := by
    rcases h with rfl | rfl | rfl | rfl
    · exact ⟨['.', '/'], rfl, rfl, rfl, rfl, rfl⟩
    · exact ⟨['.', '/'], rfl, rfl, rfl, rfl, rfl⟩
    · exact ⟨['.', '.', '/'], rfl, rfl, rfl, rfl, rfl⟩
    · exact ⟨['.', '.', '/'], rfl, rfl, rfl, rfl, rfl⟩
  refine iff_of_true hstable ?_
  rcases h with rfl | rfl | rfl | rfl
  · exact .inr (stays_of_none (f := ['.']) (by decide))
  · exact .inl rfl
  · exact .inr (stays_of_none (f := ['.', '.']) (by decide))
  · have hsplit : splitDirectory ['.', '.', '/'] = (some ['.', '.', '/'], []) := by decide
    refine .inr ((stays_some hsplit (by decide)).mpr ⟨fun _ => rfl, fun h => ?_, by decide, ?_⟩)
    · exact absurd h (by decide)
    · exact fun h => absurd h (by decide)

theorem stable_iff : Stable prin1 home s ↔ s = ['.', '/'] ∨ Stays home (expandHome home s) := by
  by_cases hs : Special s
  · have htilde : s.head? ≠ some '~' := by rcases hs with rfl | rfl | rfl | rfl <;> decide
    rw [expandHome_of_not_tilde htilde]
    exact stable_of_special hs
  have hdot : s ≠ ['.', '/'] := fun h => hs (.inr (.inl h))
  rw [or_iff_right hdot]
  rcases hsplit : splitDirectory (expandHome home s) with ⟨_ | d, f⟩
  · rw [stable_iff_reads hs hsplit]
    refine iff_of_true ?_ (stays_of_none hsplit)
    obtain ⟨hf, hmem⟩ := splitDirectory_none hsplit
    have hsf : s = f := (expandHome_of_not_mem hmem).symm.trans hf
    subst hsf
    unfold Reads
    rw [Option.map_none, Option.getD_none, List.nil_append, ofNamestring_of_not_special hs,
      Pathname.ofText, hsplit]
    exact ⟨rfl, rfl, rfl, rfl⟩
  · rw [stable_iff_reads hs hsplit, Option.map_some, Option.map_some, Option.getD_some,
      Option.getD_some, written]
    obtain ⟨hf, hne, -⟩ := splitDirectory_some hsplit
    by_cases hd : d.head? = some '/'
    · refine iff_of_true ?_ fun d' f' out hsplit' hd' => ?_
      · obtain ⟨d, rfl⟩ : ∃ t, d = '/' :: t := List.head?_eq_some_iff.mp hd
        rw [if_pos hd, parseDirectory_absolute]
        exact reads_absolute hf hne (fun t ht => not_mem_of_mem_tokens (mem_of_mem_reduce ht))
          chain_reduce
      · rw [hsplit] at hsplit'
        cases hsplit'
        exact absurd hd hd'
    · have hchain : (kept (tokens d)).IsChain (Apart Ordinary Up) := chain_reduce
      have hmem : ∀ t ∈ kept (tokens d), '/' ∉ t := fun t ht =>
        not_mem_of_mem_tokens (mem_of_mem_reduce ht)
      rw [if_neg hd, stays_some hsplit hd, parseDirectory_relative hd]
      cases hout : kept (tokens d) with
      | nil =>
        rw [if_pos rfl]
        refine (reads_dot hf hne).trans ?_
        simp
      | cons o os =>
        rw [hout] at hchain hmem
        rw [if_neg (List.cons_ne_nil o os), reads_cons hf hne hmem hchain]
        simp

/-- **A namestring that does not start with `~` is stable** exactly when it is `./` or its
components stay what they are. -/
theorem stable_iff_of_not_tilde (prin1 : Value → Text) (home : Option Text) (s : Text)
    (h : s.head? ≠ some '~') : Stable prin1 home s ↔ s = ['.', '/'] ∨ Stays home s := by
  rw [stable_iff, expandHome_of_not_tilde h]

theorem stable_iff_of_not_tilde_up :
    Stable (fun _ => []) none ['a', '/', '.', '.', '/'] ↔
      (['a', '/', '.', '.', '/'] : Text) = ['.', '/'] ∨ Stays none ['a', '/', '.', '.', '/'] :=
  stable_iff_of_not_tilde (fun _ => []) none _ (by decide)

/-- `a/../b` is the file `b` of `(:relative)`, whose namestring is `./b`. -/
theorem not_stable_up :
    ¬ ∀ (prin1 : Value → Text) (home : Option Text) (s : Text), s.head? ≠ some '~' →
      Stable prin1 home s := by
  intro h
  obtain ⟨t, ht, hdirectory, -⟩ := h (fun _ => []) none ['a', '/', '.', '.', '/', 'b'] (by decide)
  cases ht
  exact absurd hdirectory (by decide)

end Xcl.Pathnames
