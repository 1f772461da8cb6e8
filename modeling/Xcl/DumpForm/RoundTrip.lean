import Xcl.DumpForm.Read

/-!
# Which files reproduce their constants

* `internAll`: the symbols that are read for the names of a file;
* **`roundTrip_iff`**: a file whose names can be read reproduces its constants exactly when it is
  reproducible.
-/

namespace Xcl.DumpForm

section

variable {A S : Type} {atoms : Atoms A} {name : S → List Char} {upcase : Bool}

/-! ## The symbols of a file -/

def internAll (upcase : Bool) : List (List Char) → Table → List ℕ × Table
  | [], table => ([], table)
  | s :: names, table =>
    let (i, table) := internSymbol upcase s table
    let (ids, table) := internAll upcase names table
    (i :: ids, table)

theorem internAll_append (names names' : List (List Char)) (table : Table) :
    internAll upcase (names ++ names') table =
      ((internAll upcase names table).1 ++
          (internAll upcase names' (internAll upcase names table).2).1,
        (internAll upcase names' (internAll upcase names table).2).2) := by
  induction names generalizing table with
  | nil => rfl
  | cons s names ih =>
    rw [List.cons_append, internAll]
    simp only [ih]
    rfl

@[simp] theorem length_internAll (names : List (List Char)) (table : Table) :
    (internAll upcase names table).1.length = names.length := by
  induction names generalizing table with
  | nil => rfl
  | cons s names ih => simp [internAll, ih]

theorem append_eq_append_iff_of_length {α : Type} {l l' m m' : List α}
    (h : l.length = l'.length) : l ++ m = l' ++ m' ↔ l = l' ∧ m = m' := by
  constructor
  · intro he
    exact List.append_inj he h
  · rintro ⟨rfl, rfl⟩
    rfl

/-- The vectors have elements of type `T` or bytes. -/
def Plain : Object A S → Prop
  | .cons x y => Plain x ∧ Plain y
  | .vector os => ∀ o ∈ os, Plain o
  | .vectorUb16 _ => False
  | .vectorUb32 _ => False
  | _ => True

mutual

theorem readBack_snd : ∀ (o : Object A S) (table : Table),
    (readBack atoms name upcase o table).2 = (internAll upcase (o.symbols.map name) table).2
  | .atom _, _ => rfl
  | .uninterned _, _ => rfl
  | .cons x y, table => by
    simp only [readBack, Object.symbols, List.map_append, internAll_append]
    rw [readBack_snd y, readBack_snd x]
  | .vector os, table => by
    simp only [readBack, Object.symbols]
    exact readBackList_snd os table
  | .vectorUb8 _, _ => rfl
  | .vectorUb16 _, _ => rfl
  | .vectorUb32 _, _ => rfl

theorem readBackList_snd : ∀ (os : List (Object A S)) (table : Table),
    (readBackList atoms name upcase os table).2 =
      (internAll upcase ((symbolsList os).map name) table).2
  | [], _ => rfl
  | o :: os, table => by
    simp only [readBackList, symbolsList, List.map_append, internAll_append]
    rw [readBackList_snd os, readBack_snd o]

end

mutual

theorem readBack_eq_map_iff (f : S → ℕ) : ∀ (o : Object A S) (table : Table),
    (readBack atoms name upcase o table).1 = o.map f ↔
      Plain o ∧ (internAll upcase (o.symbols.map name) table).1 = o.symbols.map f
  | .atom _, _ => by simp [readBack, Object.map, Plain, Object.symbols, internAll]
  | .uninterned _, _ => by simp [readBack, Object.map, Plain, Object.symbols, internAll]
  | .cons x y, table => by
    simp only [readBack, Object.map, Plain, Object.symbols, List.map_append, internAll_append,
      Object.cons.injEq]
    rw [readBack_eq_map_iff f x, readBack_eq_map_iff f y, readBack_snd x,
      append_eq_append_iff_of_length (by simp)]
    tauto
  | .vector os, table => by
    simp only [readBack, Object.map, Plain, Object.symbols, Object.vector.injEq]
    exact readBackList_eq_map_iff f os table
  | .vectorUb8 _, _ => by simp [readBack, Object.map, Plain, Object.symbols, internAll]
  | .vectorUb16 _, _ => by simp [readBack, Object.map, Plain]
  | .vectorUb32 _, _ => by simp [readBack, Object.map, Plain]

theorem readBackList_eq_map_iff (f : S → ℕ) : ∀ (os : List (Object A S)) (table : Table),
    (readBackList atoms name upcase os table).1 = mapList f os ↔
      (∀ o ∈ os, Plain o) ∧
        (internAll upcase ((symbolsList os).map name) table).1 = (symbolsList os).map f
  | [], _ => by simp [readBackList, mapList, symbolsList, internAll]
  | o :: os, table => by
    simp only [readBackList, mapList, symbolsList, List.map_append, internAll_append,
      List.cons.injEq, List.forall_mem_cons]
    rw [readBack_eq_map_iff f o, readBackList_eq_map_iff f os, readBack_snd o,
      append_eq_append_iff_of_length (by simp)]
    tauto

end

/-! ## Correspondences of symbols -/

theorem internAnonymous_extends {s : List Char} {table : Table} :
    table <+: (internAnonymous s table).2 := by
  unfold internAnonymous
  split
  · exact List.prefix_refl _
  · exact List.prefix_append _ _

theorem internAll_extends (names : List (List Char)) (table : Table) :
    table <+: (internAll true names table).2 := by
  induction names generalizing table with
  | nil => exact List.prefix_refl _
  | cons s names ih => exact internAnonymous_extends.trans (ih _)

theorem internAnonymous_fst {s : List Char} {table final : Table}
    (h : (internAnonymous s table).2 <+: final) :
    (internAnonymous s table).1 = final.idxOf (s, true) ∧ (s, true) ∈ final := by
  unfold internAnonymous at h ⊢
  obtain ⟨rest, rfl⟩ := h
  split_ifs with hmem
  · exact ⟨(List.idxOf_append_of_mem hmem).symm, List.mem_append_left _ hmem⟩
  · refine ⟨?_, by simp⟩
    simp [List.idxOf_append, hmem]

theorem internAll_true_fst {names : List (List Char)} {table final : Table}
    (h : (internAll true names table).2 <+: final) :
    (internAll true names table).1 = names.map (fun s => final.idxOf (s, true)) ∧
      ∀ s ∈ names, (s, true) ∈ final := by
  induction names generalizing table with
  | nil => exact ⟨rfl, by simp⟩
  | cons s names ih =>
    obtain ⟨hids, hmem⟩ := ih h
    obtain ⟨hid, hs⟩ := internAnonymous_fst ((internAll_extends names _).trans h)
    refine ⟨?_, ?_⟩
    · rw [List.map_cons, ← hids, ← hid]
      rfl
    · intro t ht
      rcases List.mem_cons.mp ht with rfl | ht
      · exact hs
      · exact hmem t ht

theorem internAll_false (names : List (List Char)) (table : Table) :
    internAll false names table =
      (List.range' table.length names.length, table ++ names.map (·, false)) := by
  induction names generalizing table with
  | nil => simp [internAll]
  | cons s names ih =>
    rw [internAll]
    simp only [internSymbol, makeSymbol, Bool.false_eq_true, if_false, ih, List.length_append,
      List.length_cons, List.length_nil, List.range'_succ, List.append_assoc, List.map_cons]
    rfl

/-- A correspondence of the symbols `ss` and the symbols that are read for their names. -/
def Corresponds (name : S → List Char) (upcase : Bool) (ss : List S) (f : S → ℕ) : Prop :=
  Set.InjOn f {s | s ∈ ss} ∧ (internAll upcase (ss.map name) []).1 = ss.map f ∧
    ∀ s ∈ ss, (internAll upcase (ss.map name) []).2[f s]?.map Prod.fst = some (name s)

theorem exists_corresponds_true (ss : List S) :
    (∃ f, Corresponds name true ss f) ↔ Set.InjOn name {s | s ∈ ss} := by
  obtain ⟨hids, hmem⟩ := internAll_true_fst (List.prefix_refl (internAll true (ss.map name) []).2)
  constructor
  · rintro ⟨f, hinj, hf, -⟩ s hs t ht he
    rw [hids, List.map_map, List.map_inj_left] at hf
    apply hinj hs ht
    rw [← hf s hs, ← hf t ht]
    simp [he]
  · intro hinj
    let final := (internAll true (ss.map name) []).2
    have hget : ∀ s ∈ ss, final[final.idxOf (name s, true)]? = some (name s, true) := by
      intro s hs
      have hs' : (name s, true) ∈ final := hmem _ (List.mem_map_of_mem hs)
      rw [List.getElem?_eq_getElem (List.idxOf_lt_length_of_mem hs'), List.getElem_idxOf]
    refine ⟨fun s => final.idxOf (name s, true), ?_, ?_, ?_⟩
    · intro s hs t ht he
      have h := hget s hs
      simp only at he
      rw [he, hget t ht] at h
      exact hinj hs ht (by simpa using h.symm)
    · rw [hids, List.map_map]
      rfl
    · intro s hs
      rw [hget s hs]
      rfl

theorem exists_corresponds_false [DecidableEq S] (ss : List S) :
    (∃ f, Corresponds name false ss f) ↔ ss.Nodup := by
  unfold Corresponds
  rw [internAll_false]
  simp only [List.length_nil, List.length_map, List.nil_append]
  constructor
  · rintro ⟨f, -, hf, -⟩
    have h : (ss.map f).Nodup := by
      rw [← hf]
      exact List.nodup_range'
    exact h.of_map f
  · intro hnodup
    refine ⟨ss.idxOf, ?_, ?_, ?_⟩
    · intro s hs t ht he
      exact (List.idxOf_inj hs).mp he
    · apply List.ext_getElem
      · simp
      · intro i h₁ h₂
        simp [hnodup.idxOf_getElem]
    · intro s hs
      rw [List.map_map, List.getElem?_map,
        List.getElem?_eq_getElem (List.idxOf_lt_length_of_mem hs), List.getElem_idxOf]
      rfl

/-! ## Files -/

variable [DecidableEq A]

theorem readForms_newline (fuel : ℕ) (text : List Char) (table : Table) :
    readForms atoms fuel ('\n' :: text) table = readForms atoms fuel text table := by
  cases fuel with
  | zero => rfl
  | succ fuel => rfl

theorem readForms_dumpFile (hatoms : atoms.ReadsBack) {forms : List (Object A S)}
    (hread : ∀ s ∈ symbolsList forms, Readable upcase (name s)) {charpos fuel : ℕ} {table : Table}
    (hfuel : (dumpFile atoms name upcase forms charpos).length < fuel) :
    readForms atoms fuel (dumpFile atoms name upcase forms charpos) table =
      some (readBackList atoms name upcase forms table) := by
  induction forms generalizing charpos fuel table with
  | nil =>
    obtain ⟨fuel, rfl⟩ : ∃ n, fuel = n + 1 := ⟨fuel - 1, by omega⟩
    rfl
  | cons form forms ih =>
    have hform := (readsObject_and_tail hatoms form
      fun s hs => hread s (by simp [symbolsList, hs])).1
    have ih := fun {n m t} h => @ih (fun s hs => hread s (by simp [symbolsList, hs])) n m t h
    obtain ⟨fuel, rfl⟩ : ∃ n, fuel = n + 1 := ⟨fuel - 1, by omega⟩
    obtain ⟨c, text, ho, hstarts⟩ := starts_dumpObject atoms name upcase hatoms form charpos
    rw [dumpFile] at hfuel ⊢
    simp only [ho, List.length_append, List.length_cons, List.length_nil,
      List.cons_append] at hfuel
    simp only [ho, List.append_assoc, List.cons_append, List.nil_append]
    have hnewline : ∀ more, Delimited ('\n' :: more) := by
      intro more d hd
      simp only [List.head?_cons, Option.mem_def, Option.some.injEq] at hd
      exact Or.inl (hd ▸ isWhitespace_newline)
    rw [readForms, hstarts.dropWhile_eq]
    simp only
    rw [hform _ _ table fuel c text ho (hnewline _) (by omega)]
    simp only [Option.bind_some]
    rw [readForms_newline, ih (by omega)]
    rfl

/-- **A file whose names can be read is read as `readBackList` says.** -/
theorem readFile_dumpFile (hatoms : atoms.ReadsBack) {forms : List (Object A S)}
    (hread : ∀ s ∈ symbolsList forms, Readable upcase (name s)) (charpos : ℕ) :
    readFile atoms (dumpFile atoms name upcase forms charpos) =
      some (readBackList atoms name upcase forms []) :=
  readForms_dumpFile hatoms hread (by omega)

/-- The vectors are plain, and the symbols are known by their names; or, when they are not
interned, each of them occurs once. -/
def Reproducible (name : S → List Char) (upcase : Bool) (forms : List (Object A S)) : Prop :=
  (∀ form ∈ forms, Plain form) ∧
    if upcase then Set.InjOn name {s | s ∈ symbolsList forms} else (symbolsList forms).Nodup

/-- **A file whose names can be read reproduces its constants exactly when it has no vector of
16-bit or 32-bit integers and no two uninterned symbols of the same name.** -/
theorem roundTrip_iff (hatoms : atoms.ReadsBack) (charpos : ℕ) (forms : List (Object A S))
    (hread : ∀ s ∈ symbolsList forms, Readable upcase (name s)) :
    RoundTrip atoms name upcase charpos forms ↔ Reproducible name upcase forms := by
  classical
  have hcorr : (∃ f, Corresponds name upcase (symbolsList forms) f) ↔
      if upcase then Set.InjOn name {s | s ∈ symbolsList forms}
      else (symbolsList forms).Nodup := by
    cases upcase with
    | true => exact exists_corresponds_true _
    | false => exact exists_corresponds_false _
  unfold Reproducible RoundTrip
  rw [← hcorr, readFile_dumpFile hatoms hread]
  have htable : (readBackList atoms name upcase forms []).2 = _ := readBackList_snd forms []
  constructor
  · rintro ⟨read, table, he, f, hinj, hmap, hnames⟩
    rw [Option.some.injEq] at he
    have htable : table = (internAll upcase ((symbolsList forms).map name) []).2 := by
      rw [← htable, he]
    rw [htable] at hnames
    have hmap : (readBackList atoms name upcase forms []).1 = mapList f forms := by rw [he, hmap]
    obtain ⟨hplain, hids⟩ := (readBackList_eq_map_iff f forms []).mp hmap
    exact ⟨hplain, f, hinj, hids, hnames⟩
  · rintro ⟨hplain, f, hinj, hids, hnames⟩
    refine ⟨_, _, rfl, f, hinj, (readBackList_eq_map_iff f forms []).mpr ⟨hplain, hids⟩, ?_⟩
    rw [htable]
    exact hnames

end

/-! ## Examples of files -/

/-- `NIL`, `QUOTE` and the natural numbers. -/
inductive SampleAtom
  | nil
  | quote
  | number (n : ℕ)
  deriving DecidableEq

def sampleAtoms : Atoms SampleAtom where
  nil := .nil
  quote := .quote
  integer := .number
  print
    | .nil => "NIL".toList
    | .quote => "QUOTE".toList
    | .number n => Nat.toDigits 10 n
  read text :=
    let token := text.takeWhile (!isDelimiter ·)
    let rest := text.dropWhile (!isDelimiter ·)
    if token = "NIL".toList then some (.nil, rest)
    else if token = "QUOTE".toList then some (.quote, rest)
    else if token ≠ [] ∧ token.all Char.isDigit then
      some (.number (Nat.ofDigitChars 10 token 0), rest)
    else none

theorem isDelimiter_of_isDigit {c : Char} (h : c.isDigit = true) : isDelimiter c = false := by
  rw [← Bool.not_eq_true]
  intro hd
  simp only [isDelimiter, isTerminating, isWhitespace, Bool.or_eq_true, decide_eq_true_eq,
    List.mem_cons, List.not_mem_nil, or_false] at hd
  rcases hd with (rfl | rfl | rfl | rfl | rfl | rfl | rfl) | (rfl | rfl | rfl | rfl | rfl) <;>
    exact absurd h (by decide)

theorem takeWhile_token {token rest : List Char} (htoken : ∀ c ∈ token, isDelimiter c = false)
    (hrest : Delimited rest) :
    (token ++ rest).takeWhile (!isDelimiter ·) = token ∧
      (token ++ rest).dropWhile (!isDelimiter ·) = rest := by
  have hpos : ∀ c ∈ token, (!isDelimiter c) = true := fun c hc => by rw [htoken c hc]; rfl
  rw [List.takeWhile_append_of_pos hpos, List.dropWhile_append_of_pos hpos]
  cases rest with
  | nil => simp
  | cons c rest =>
    have hc := (isDelimiter_of_delimited (hrest c (by simp))).1
    simp [hc]

theorem isDigit_toDigits {n : ℕ} {c : Char} (h : c ∈ Nat.toDigits 10 n) : c.isDigit = true :=
  Nat.isDigit_of_mem_toDigits (by decide) (by decide) h

theorem toDigits_ne_of_not_isDigit {n : ℕ} {token : List Char}
    (h : ∃ c ∈ token, c.isDigit = false) : Nat.toDigits 10 n ≠ token := by
  obtain ⟨c, hc, hdigit⟩ := h
  intro he
  rw [← he] at hc
  rw [isDigit_toDigits hc] at hdigit
  cases hdigit

theorem readsBack_sampleAtoms : sampleAtoms.ReadsBack where
  read_print a rest hrest := by
    cases a with
    | nil =>
      have htoken : ∀ c ∈ "NIL".toList, isDelimiter c = false := by
        intro c hc
        simp only [String.toList] at hc
        fin_cases hc <;> rfl
      have h := takeWhile_token htoken hrest
      simp only [sampleAtoms, h]
      rfl
    | quote =>
      have htoken : ∀ c ∈ "QUOTE".toList, isDelimiter c = false := by
        intro c hc
        simp only [String.toList] at hc
        fin_cases hc <;> rfl
      have h := takeWhile_token htoken hrest
      simp only [sampleAtoms, h]
      rfl
    | number n =>
      have h := takeWhile_token
        (fun c hc => isDelimiter_of_isDigit (isDigit_toDigits (n := n) hc)) hrest
      have hnil : Nat.toDigits 10 n ≠ "NIL".toList :=
        toDigits_ne_of_not_isDigit ⟨'N', by decide, rfl⟩
      have hquote : Nat.toDigits 10 n ≠ "QUOTE".toList :=
        toDigits_ne_of_not_isDigit ⟨'Q', by decide, rfl⟩
      have hall : (Nat.toDigits 10 n).all Char.isDigit = true :=
        List.all_eq_true.mpr fun c hc => isDigit_toDigits hc
      simp only [sampleAtoms, h, if_neg hnil, if_neg hquote]
      rw [if_pos ⟨Nat.toDigits_ne_nil, hall⟩, Nat.ofDigitChars_ten_toDigits]
  starts a := by
    cases a with
    | nil => exact ⟨'N', "IL".toList, rfl, ⟨by decide, by decide, by decide⟩, by decide, by decide⟩
    | quote =>
      exact ⟨'Q', "UOTE".toList, rfl, ⟨by decide, by decide, by decide⟩, by decide, by decide⟩
    | number n =>
      cases hn : Nat.toDigits 10 n with
      | nil => exact absurd hn Nat.toDigits_ne_nil
      | cons c text =>
        have hc : c.isDigit = true := isDigit_toDigits (n := n) (by simp [hn])
        have hdel := isDelimiter_of_isDigit hc
        have hne : ∀ d : Char, d.isDigit = false → c ≠ d := by
          rintro d hd rfl
          rw [hc] at hd
          cases hd
        refine ⟨c, text, hn, ⟨?_, hne _ rfl, fun he => absurd he (hne _ rfl)⟩, hne _ rfl, hne _ rfl⟩
        rw [isDelimiter, Bool.or_eq_false_iff] at hdel
        exact hdel.2
  sharp a text ha := by
    cases a with
    | nil => cases ha
    | quote => cases ha
    | number n => exact absurd ha (toDigits_ne_of_not_isDigit ⟨'#', by simp, rfl⟩)

/-- The names of three symbols: `A`, `b`, and a name with a form feed. -/
def sampleName : Fin 3 → List Char
  | 0 => ['A']
  | 1 => ['b']
  | 2 => ['A', formFeed, 'B']

/-- The file of `(#:A #(1 #2%..) . #:|b|)`. -/
def sampleForms : List (Object SampleAtom (Fin 3)) :=
  [.cons (.uninterned 0) (.cons (.vector [.atom (.number 1), .vectorUb8 [10, 40]])
    (.uninterned 1))]

theorem readFile_formFeed :
    readFile sampleAtoms (dumpFile sampleAtoms sampleName true [.uninterned 2] 0) = none := by
  have htext : dumpFile sampleAtoms sampleName true [.uninterned 2] 0 =
      ['#', '$', 'A', formFeed, 'B', '\n'] := by
    simp only [dumpFile, dumpObject]
    rfl
  rw [htext]
  decide

/-- Three files that do not read back: a vector of 16-bit integers, two symbols of the same name,
and a symbol whose name has a form feed. -/
theorem not_roundTrip :
    ¬RoundTrip sampleAtoms sampleName true 0 [.vectorUb16 [1]] ∧
      ¬RoundTrip sampleAtoms (fun _ : Fin 2 => ['A']) true 0
        [.cons (.uninterned 0) (.uninterned 1)] ∧
      ¬RoundTrip sampleAtoms sampleName true 0 [.uninterned 2] := by
  refine ⟨?_, ?_, ?_⟩
  · rintro ⟨read, table, he, f, -, hmap, -⟩
    rw [readFile_dumpFile readsBack_sampleAtoms (by simp [symbolsList, Object.symbols])] at he
    cases he
    simp [mapList, Object.map] at hmap
  · rintro ⟨read, table, he, f, hinj, hmap, -⟩
    rw [readFile_dumpFile readsBack_sampleAtoms
      (fun s _ _ => Or.inr (by decide))] at he
    cases he
    have h01 : f 0 = f 1 := by
      simp [mapList, Object.map] at hmap
      rw [← hmap.1, ← hmap.2]
    exact absurd (hinj (by simp [symbolsList, Object.symbols])
      (by simp [symbolsList, Object.symbols]) h01) (by decide)
  · rintro ⟨read, table, he, -⟩
    rw [readFile_formFeed] at he
    cases he

/-- A file with two symbols and two vectors reads back. -/
theorem roundTrip_sampleForms :
    sampleAtoms.ReadsBack ∧ RoundTrip sampleAtoms sampleName true 0 sampleForms := by
  refine ⟨readsBack_sampleAtoms, (roundTrip_iff readsBack_sampleAtoms 0 sampleForms ?_).mpr ?_⟩
  · intro s hs _
    simp only [sampleForms, symbolsList, Object.symbols, List.append_nil, List.nil_append,
      List.mem_append, List.mem_singleton] at hs
    rcases hs with rfl | rfl <;> decide
  · refine ⟨by simp [sampleForms, Plain], ?_⟩
    intro s hs t ht he
    simp only [sampleForms, symbolsList, Object.symbols, List.append_nil, List.nil_append,
      List.mem_append, List.mem_singleton, Set.mem_ofPred_eq] at hs ht
    rcases hs with rfl | rfl <;> rcases ht with rfl | rfl <;>
      first | rfl | exact absurd he (by decide)

end Xcl.DumpForm
