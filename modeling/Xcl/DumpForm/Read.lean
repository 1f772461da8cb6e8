import Xcl.DumpForm.Model

/-!
# Reading the text of a form

* `Atoms.ReadsBack`: the atoms print and read back;
* **`readsObject_and_tail`**: so it is for every form whose names can be read.
-/

namespace Xcl.DumpForm

-- The equations of these functions are made once, before the lemmas that use them.
section
attribute [local simp] Object.symbols dumpElements dumpIntegers dumpObject dumpTail escapeChars
  streamProcessChar streamReadBinaryData streamReadDispatchChar streamReadList streamReadSymbol
  streamReadVector symbolsList
end

/-! ## Texts -/

/-- The text ends a token. -/
def Delimited (text : List Char) : Prop := ∀ c ∈ text.head?, isWhitespace c = true ∨ c = ')'

/-- An object starts here: the reader of a list or a vector hands these characters on. -/
def Starts (c : Char) (text : List Char) : Prop :=
  isWhitespace c = false ∧ c ≠ ')' ∧ (c = '.' → ∃ d ∈ text.head?, isDelimiter d = false)

structure Atoms.ReadsBack {A : Type} (atoms : Atoms A) : Prop where
  read_print : ∀ a rest, Delimited rest → atoms.read (atoms.print a ++ rest) = some (a, rest)
  starts : ∀ a, ∃ c text, atoms.print a = c :: text ∧ Starts c text ∧ c ≠ '(' ∧ c ≠ '\''
  sharp : ∀ a text, atoms.print a = '#' :: text →
    ∃ c ∈ text.head?, c.isDigit = false ∧ c ∉ ['$', ':', '%', '(']

theorem isWhitespace_space : isWhitespace ' ' = true := by decide

theorem isWhitespace_newline : isWhitespace '\n' = true := by decide

@[simp] theorem dropWhile_separator (n : ℕ) (text : List Char) :
    (separator n ++ text).dropWhile isWhitespace = text.dropWhile isWhitespace := by
  unfold separator
  split <;> simp [isWhitespace_space, isWhitespace_newline]

theorem delimited_separator (n : ℕ) (text : List Char) : Delimited (separator n ++ text) := by
  intro c hc
  unfold separator at hc
  split at hc <;> simp at hc <;> subst hc
  · exact Or.inl isWhitespace_newline
  · exact Or.inl isWhitespace_space

theorem delimited_paren (text : List Char) : Delimited (')' :: text) := by
  intro c hc
  simp at hc
  exact Or.inr hc.symm

theorem Starts.dropWhile_eq {c : Char} {text : List Char} (h : Starts c text) (rest : List Char) :
    (c :: rest).dropWhile isWhitespace = c :: rest := by
  rw [List.dropWhile_cons, h.1]
  rfl

theorem Starts.dropWhile_space {c : Char} {text : List Char} (h : Starts c text)
    (rest : List Char) : (' ' :: c :: rest).dropWhile isWhitespace = c :: rest :=
  h.dropWhile_eq rest

theorem Starts.append {c : Char} {text : List Char} (h : Starts c text) (rest : List Char) :
    Starts c (text ++ rest) := by
  refine ⟨h.1, h.2.1, fun hc => ?_⟩
  obtain ⟨d, hd, hd'⟩ := h.2.2 hc
  refine ⟨d, ?_, hd'⟩
  cases text with
  | nil => simp at hd
  | cons e text => exact hd

/-! ## Names -/

theorem streamReadSymbol_bar (escaped : Bool) (rest : List Char) :
    streamReadSymbol escaped ('|' :: rest) = streamReadSymbol (!escaped) rest := by
  cases escaped <;> cases rest <;> simp [streamReadSymbol]

theorem streamReadSymbol_false_cons {c : Char} (h : c ≠ '\\' ∧ c ≠ '|') (rest : List Char) :
    streamReadSymbol false (c :: rest) =
      if isDelimiter c then some ([], c :: rest)
      else (streamReadSymbol false rest).map fun (s, r) => (c.toUpper :: s, r) := by
  rw [isDelimiter, Bool.or_comm]
  conv_lhs => unfold streamReadSymbol
  split <;> simp_all

theorem streamReadSymbol_true_cons {c : Char} (h : c ≠ '\\' ∧ c ≠ '|') (rest : List Char) :
    streamReadSymbol true (c :: rest) =
      (streamReadSymbol true rest).map fun (s, r) => (c :: s, r) := by
  conv_lhs => unfold streamReadSymbol
  split <;> simp_all

theorem isDelimiter_of_delimited {c : Char} (h : isWhitespace c = true ∨ c = ')') :
    isDelimiter c = true ∧ c ≠ '\\' ∧ c ≠ '|' := by
  rcases h with h | h
  · refine ⟨?_, ?_, ?_⟩
    · rw [isDelimiter, h, Bool.or_true]
    · rintro rfl
      exact absurd h (by decide)
    · rintro rfl
      exact absurd h (by decide)
  · subst h
    decide

theorem streamReadSymbol_delimited {rest : List Char} (h : Delimited rest) :
    streamReadSymbol false rest = some ([], rest) := by
  cases rest with
  | nil => rfl
  | cons c rest =>
    obtain ⟨hdel, hne⟩ := isDelimiter_of_delimited (h c (by simp))
    rw [streamReadSymbol_false_cons hne, if_pos hdel]

theorem streamReadSymbol_escapeChars (s rest : List Char) :
    streamReadSymbol true (escapeChars s ++ '|' :: rest) =
      (streamReadSymbol false rest).map fun (t, r) => (s ++ t, r) := by
  induction s with
  | nil =>
    rw [escapeChars, List.nil_append, streamReadSymbol_bar]
    simp
  | cons c s ih =>
    rw [escapeChars]
    split
    · rw [List.cons_append, List.cons_append, streamReadSymbol, ih, Option.map_map]
      rfl
    · rename_i h
      push Not at h
      rw [List.cons_append, streamReadSymbol_true_cons ⟨h.2, h.1⟩, ih, Option.map_map]
      rfl

theorem streamReadSymbol_multipleEscape {rest : List Char} (h : Delimited rest)
    (s : List Char) : streamReadSymbol false (multipleEscape s ++ rest) = some (s, rest) := by
  rw [multipleEscape, List.append_assoc, List.cons_append, streamReadSymbol_bar, Bool.not_false,
    List.cons_append, List.nil_append, streamReadSymbol_escapeChars, streamReadSymbol_delimited h]
  simp

theorem toUpper_of_isLower_eq_false {c : Char} (h : c.isLower = false) : c.toUpper = c := by
  unfold Char.isLower at h
  unfold Char.toUpper
  rw [dif_neg]
  intro hc
  rw [show decide (c.val ≥ 'a'.val) = true from decide_eq_true hc.1,
    show decide (c.val ≤ 'z'.val) = true from decide_eq_true hc.2] at h
  cases h

theorem plain_of_isSpecial {c : Char} (h : isSpecial c = false) (hff : c ≠ formFeed) :
    (c ≠ '\\' ∧ c ≠ '|') ∧ isDelimiter c = false ∧ c.toUpper = c := by
  simp only [isSpecial, Bool.or_eq_false_iff, decide_eq_false_iff_not, List.mem_cons,
    List.not_mem_nil, or_false, not_or] at h
  obtain ⟨⟨hterminating, hspace⟩, hlower⟩ := h
  refine ⟨⟨hterminating.2.2.2.2.1, hterminating.2.2.2.1⟩, ?_, toUpper_of_isLower_eq_false hlower⟩
  simp only [isDelimiter, isTerminating, isWhitespace, Bool.or_eq_false_iff,
    decide_eq_false_iff_not, List.mem_cons, List.not_mem_nil, or_false, not_or]
  tauto

theorem streamReadSymbol_append {s : List Char} (h : needsEscape s = false) {rest : List Char} :
    streamReadSymbol false (s ++ rest) =
      if formFeed ∈ s then some (s.takeWhile (· ≠ formFeed), s.dropWhile (· ≠ formFeed) ++ rest)
      else (streamReadSymbol false rest).map fun (t, r) => (s ++ t, r) := by
  have hspecial : ∀ c ∈ s, isSpecial c = false := by
    simp only [needsEscape, Bool.or_eq_false_iff, List.any_eq_false, Bool.not_eq_true] at h
    exact h.1.1.2
  clear h
  induction s with
  | nil => simp
  | cons c s ih =>
    have hc := hspecial c (by simp)
    have ih := ih fun d hd => hspecial d (by simp [hd])
    by_cases hff : c = formFeed
    · subst hff
      rw [List.cons_append, streamReadSymbol_false_cons (by decide), if_pos (by decide)]
      simp
    · have hplain := plain_of_isSpecial hc hff
      rw [List.cons_append, streamReadSymbol_false_cons hplain.1, hplain.2.1, hplain.2.2, ih]
      by_cases hmem : formFeed ∈ s
      · simp [hmem, hff]
      · have : formFeed ≠ c := fun he => hff he.symm
        simp [hmem, this]
        rfl

/-! ## Lengths and bytes -/

theorem takeWhile_toDigits (n : ℕ) {c : Char} (hc : c.isDigit = false) (rest : List Char) :
    (Nat.toDigits 10 n ++ c :: rest).takeWhile Char.isDigit = Nat.toDigits 10 n := by
  rw [List.takeWhile_append_of_pos fun d hd =>
    Nat.isDigit_of_mem_toDigits (by decide) (by decide) hd,
    List.takeWhile_cons_of_neg (by simp [hc]), List.append_nil]

theorem dropWhile_toDigits (n : ℕ) {c : Char} (hc : c.isDigit = false) (rest : List Char) :
    (Nat.toDigits 10 n ++ c :: rest).dropWhile Char.isDigit = c :: rest := by
  rw [List.dropWhile_append_of_pos fun d hd =>
    Nat.isDigit_of_mem_toDigits (by decide) (by decide) hd,
    List.dropWhile_cons_of_neg (by simp [hc])]

theorem ofNat_toNat_ofNat (b : UInt8) : UInt8.ofNat (Char.ofNat b.toNat).toNat = b := by
  have hlt := b.toNat_lt
  have hvalid : b.toNat.isValidChar := Or.inl (by omega)
  have h : (Char.ofNat b.toNat).toNat = b.toNat := by
    rw [Char.ofNat, dif_pos hvalid]
    rfl
  rw [h, UInt8.ofNat_toNat]

theorem streamReadBinaryData_append (bytes : List UInt8) (rest : List Char) :
    streamReadBinaryData bytes.length ((bytes.map fun b => Char.ofNat b.toNat) ++ rest) =
      (bytes, rest) := by
  induction bytes with
  | nil => rfl
  | cons b bytes ih =>
    rw [List.map_cons, List.cons_append, List.length_cons, streamReadBinaryData, ih,
      ofNat_toNat_ofNat]

theorem mem_symbolsList {A S : Type} {os : List (Object A S)} {s : S} :
    s ∈ symbolsList os ↔ ∃ o ∈ os, s ∈ o.symbols := by
  induction os with
  | nil => simp [symbolsList]
  | cons o os ih => simp [symbolsList, ih]

section Reader

variable {A S : Type} [DecidableEq A] {atoms : Atoms A} {name : S → List Char} {upcase : Bool}
variable {fuel size : ℕ} {t text rest : List Char} {table : Table} {acc : List (Object A ℕ)}
variable {tail : Object A ℕ} {c : Char}

/-! ## Single calls of the reader -/

omit [DecidableEq A] in
theorem streamRead_of_starts {processChar : Char → List Char → Table → Result (Object A ℕ)}
    (hdrop : t.dropWhile isWhitespace = c :: text) :
    streamRead processChar t table = processChar c text table := by
  unfold streamRead
  rw [hdrop]

theorem streamReadList_paren (hdrop : t.dropWhile isWhitespace = ')' :: rest) :
    streamReadList atoms (fuel + 1) t table acc tail = some (listOf acc tail, rest, table) := by
  rw [streamReadList, hdrop]
  rfl

theorem streamReadList_object (hdrop : t.dropWhile isWhitespace = c :: text)
    (h : Starts c text) :
    streamReadList atoms (fuel + 1) t table acc tail =
      (streamProcessChar atoms fuel c text table).bind fun (x, rest, table) =>
        streamReadList atoms fuel rest table (x :: acc) (.atom atoms.nil) := by
  have hnil : ¬(c = '.' ∧ text = []) := by
    rintro ⟨hc, rfl⟩
    obtain ⟨d, hd, -⟩ := h.2.2 hc
    simp at hd
  have hdot : ¬(c = '.' ∧ text.head?.any isDelimiter = true) := by
    rintro ⟨hc, hany⟩
    obtain ⟨d, hd, hd'⟩ := h.2.2 hc
    rw [Option.mem_def.mp hd, Option.any_some, hd'] at hany
    cases hany
  rw [streamReadList, hdrop]
  simp only [if_neg h.2.1, if_neg hnil, if_neg hdot]

theorem streamReadList_dot (hdrop : t.dropWhile isWhitespace = '.' :: ' ' :: text)
    (hacc : acc ≠ []) :
    streamReadList atoms (fuel + 1) t table acc tail =
      (streamRead (streamProcessChar atoms fuel) (' ' :: text) table).bind
        fun (x, rest, table) => streamReadList atoms fuel rest table acc x := by
  rw [streamReadList, hdrop]
  simp only [if_neg hacc]
  rfl

theorem streamReadList_separator (n : ℕ) :
    streamReadList atoms fuel (separator n ++ t) table acc tail =
      streamReadList atoms fuel t table acc tail := by
  cases fuel with
  | zero => simp only [streamReadList]
  | succ fuel => simp only [streamReadList, dropWhile_separator]

theorem streamReadVector_separator (n : ℕ) :
    streamReadVector atoms fuel size (separator n ++ t) table acc =
      streamReadVector atoms fuel size t table acc := by
  cases fuel with
  | zero => simp only [streamReadVector]
  | succ fuel => simp only [streamReadVector, dropWhile_separator]

theorem streamReadVector_paren (hdrop : t.dropWhile isWhitespace = ')' :: rest) :
    streamReadVector atoms (fuel + 1) size t table acc =
      (fillVector atoms size acc).map fun v => (v, rest, table) := by
  rw [streamReadVector, hdrop]
  rfl

theorem streamReadVector_object (hdrop : t.dropWhile isWhitespace = c :: text)
    (h : Starts c text) :
    streamReadVector atoms (fuel + 1) size t table acc =
      (streamProcessChar atoms fuel c text table).bind fun (x, rest, table) =>
        streamReadVector atoms fuel size rest table (x :: acc) := by
  have hdot : ¬(c = '.' ∧ text.head?.all isDelimiter = true) := by
    rintro ⟨hc, hall⟩
    obtain ⟨d, hd, hd'⟩ := h.2.2 hc
    rw [Option.mem_def.mp hd, Option.all_some, hd'] at hall
    cases hall
  rw [streamReadVector, hdrop]
  simp only [if_neg h.2.1, if_neg hdot]

omit [DecidableEq A] in
theorem fillVector_self : fillVector atoms acc.length acc = some (.vector acc.reverse) := by
  simp [fillVector]

theorem streamProcessChar_paren :
    streamProcessChar atoms (fuel + 1) '(' text table =
      streamReadList atoms fuel text table [] (.atom atoms.nil) := by
  rw [streamProcessChar]
  rfl

theorem streamProcessChar_quote :
    streamProcessChar atoms (fuel + 1) '\'' text table =
      (streamRead (streamProcessChar atoms fuel) text table).map fun (x, rest, table) =>
        (.cons (.atom atoms.quote) (.cons x (.atom atoms.nil)), rest, table) := by
  rw [streamProcessChar]
  rfl

theorem streamProcessChar_sharp :
    streamProcessChar atoms (fuel + 1) '#' text table =
      streamReadDispatchChar atoms fuel text table := by
  rw [streamProcessChar]
  rfl

theorem streamReadDispatchChar_vector (n : ℕ) :
    streamReadDispatchChar atoms (fuel + 1) (Nat.toDigits 10 n ++ '(' :: text) table =
      streamReadVector atoms fuel n text table [] := by
  rw [streamReadDispatchChar]
  simp only [takeWhile_toDigits n (c := '(') rfl, dropWhile_toDigits n (c := '(') rfl,
    Nat.ofDigitChars_ten_toDigits, Nat.toDigits_ne_nil, if_false]
  rfl

theorem streamReadDispatchChar_percent (n : ℕ) :
    streamReadDispatchChar atoms (fuel + 1) (Nat.toDigits 10 n ++ '%' :: text) table =
      some (.vectorUb8 (streamReadBinaryData n text).1, (streamReadBinaryData n text).2,
        table) := by
  rw [streamReadDispatchChar]
  simp only [takeWhile_toDigits n (c := '%') rfl, dropWhile_toDigits n (c := '%') rfl,
    Nat.ofDigitChars_ten_toDigits, Nat.toDigits_ne_nil, if_false]
  rfl

theorem streamReadDispatchChar_dollar :
    streamReadDispatchChar atoms (fuel + 1) ('$' :: text) table =
      (streamReadSymbol false text).map fun (s, rest) =>
        (.uninterned (internAnonymous s table).1, rest, (internAnonymous s table).2) := by
  rw [streamReadDispatchChar]
  rfl

theorem streamReadDispatchChar_colon :
    streamReadDispatchChar atoms (fuel + 1) (':' :: text) table =
      (streamReadSymbol false text).map fun (s, rest) =>
        (.uninterned (makeSymbol s table).1, rest, (makeSymbol s table).2) := by
  rw [streamReadDispatchChar]
  rfl

theorem streamProcessChar_print (h : atoms.ReadsBack) {a : A} (ha : atoms.print a = c :: text)
    (hrest : Delimited rest) (hfuel : text.length < fuel) :
    streamProcessChar atoms fuel c (text ++ rest) table = some (.atom a, rest, table) := by
  obtain ⟨fuel, rfl⟩ : ∃ n, fuel = n + 1 := ⟨fuel - 1, by omega⟩
  obtain ⟨c', text', ha', hstarts, hparen, hquote⟩ := h.starts a
  rw [ha] at ha'
  cases ha'
  have hread : atoms.read (c :: (text ++ rest)) = some (a, rest) := by
    rw [← List.cons_append, ← ha]
    exact h.read_print a rest hrest
  by_cases hsharp : c = '#'
  · subst hsharp
    obtain ⟨d, hd, hdigit, hmem⟩ := h.sharp a text ha
    simp only [List.mem_cons, List.not_mem_nil, or_false, not_or] at hmem
    cases text with
    | nil => simp at hd
    | cons e text =>
      obtain rfl : e = d := by simpa using hd
      obtain ⟨fuel, rfl⟩ : ∃ n, fuel = n + 1 := ⟨fuel - 1, by simp at hfuel; omega⟩
      rw [streamProcessChar_sharp, streamReadDispatchChar]
      rw [List.cons_append, List.dropWhile_cons_of_neg (by simp [hdigit])]
      simp only [if_neg hmem.1, if_neg hmem.2.1, if_neg hmem.2.2.1, if_neg hmem.2.2.2]
      rw [← List.cons_append, hread]
      rfl
  · rw [streamProcessChar]
    simp only [if_neg hparen, if_neg hquote, if_neg hstarts.2.1, if_neg hsharp]
    rw [hread]
    rfl

/-! ## What is read -/

/-- The symbol that is read for a name. -/
def internSymbol (upcase : Bool) (s : List Char) (table : Table) : ℕ × Table :=
  if upcase then internAnonymous s table else makeSymbol s table

section ReadBack

variable (atoms name upcase)

/-- The vector of the integers, as a general vector. -/
def integers (ns : List ℕ) : List (Object A ℕ) := ns.map fun n => .atom (atoms.integer n)

mutual

/-- The form that is read for the text of a form. -/
def readBack : Object A S → Table → Object A ℕ × Table
  | .atom a, table => (.atom a, table)
  | .uninterned s, table =>
    let (i, table) := internSymbol upcase (name s) table
    (.uninterned i, table)
  | .cons car cdr, table =>
    let (x, table) := readBack car table
    let (y, table) := readBack cdr table
    (.cons x y, table)
  | .vector elements, table =>
    let (xs, table) := readBackList elements table
    (.vector xs, table)
  | .vectorUb8 elements, table => (.vectorUb8 elements, table)
  | .vectorUb16 elements, table => (.vector (integers atoms (elements.map (·.toNat))), table)
  | .vectorUb32 elements, table => (.vector (integers atoms (elements.map (·.toNat))), table)

def readBackList : List (Object A S) → Table → List (Object A ℕ) × Table
  | [], table => ([], table)
  | o :: os, table =>
    let (x, table) := readBack o table
    let (xs, table) := readBackList os table
    (x :: xs, table)

end

section
attribute [local simp] readBack readBackList
end

/-- The name can be read: it is written with escapes, or it has no form feed. -/
def Readable (s : List Char) : Prop := upcase = true → needsEscape s = true ∨ formFeed ∉ s

variable {name upcase} in
theorem streamProcessChar_writeUninterned {s : List Char} (h : Readable upcase s)
    (hs : writeUninterned upcase s = c :: text) (hrest : Delimited rest)
    (hfuel : text.length < fuel) :
    streamProcessChar atoms fuel c (text ++ rest) table =
      some (.uninterned (internSymbol upcase s table).1, rest,
        (internSymbol upcase s table).2) := by
  unfold writeUninterned at hs
  unfold internSymbol
  cases upcase with
  | false =>
    cases hs
    obtain ⟨fuel, rfl⟩ : ∃ n, fuel = n + 2 := ⟨fuel - 2, by simp at hfuel; omega⟩
    rw [List.cons_append, streamProcessChar_sharp, streamReadDispatchChar_colon,
      streamReadSymbol_multipleEscape hrest]
    rfl
  | true =>
    cases hs
    obtain ⟨fuel, rfl⟩ : ∃ n, fuel = n + 2 := ⟨fuel - 2, by simp at hfuel; omega⟩
    rw [List.cons_append, streamProcessChar_sharp, streamReadDispatchChar_dollar]
    have hname : streamReadSymbol false
        ((if needsEscape s = true then multipleEscape s else s) ++ rest) = some (s, rest) := by
      split
      · exact streamReadSymbol_multipleEscape hrest s
      · rename_i hescape
        have hff : formFeed ∉ s := (h rfl).resolve_left hescape
        rw [streamReadSymbol_append (by simpa using hescape), if_neg hff,
          streamReadSymbol_delimited hrest]
        simp
    rw [hname]
    rfl

/-! ## Texts of forms -/

theorem starts_dumpObject (h : atoms.ReadsBack) (o : Object A S) (charpos : ℕ) :
    ∃ c text, dumpObject atoms name upcase o charpos = c :: text ∧ Starts c text := by
  have hsharp : ∀ text, Starts '#' text := fun text =>
    ⟨by decide, by decide, fun hc => absurd hc (by decide)⟩
  cases o with
  | atom a =>
    obtain ⟨c, text, ha, hstarts, -, -⟩ := h.starts a
    exact ⟨c, text, by rw [dumpObject, ha], hstarts⟩
  | uninterned s =>
    rw [dumpObject, writeUninterned]
    split
    · exact ⟨_, _, rfl, hsharp _⟩
    · exact ⟨_, _, rfl, hsharp _⟩
  | cons car cdr =>
    rw [dumpObject]
    split
    · exact ⟨_, _, rfl, by decide, by decide, fun hc => absurd hc (by decide)⟩
    · exact ⟨_, _, rfl, by decide, by decide, fun hc => absurd hc (by decide)⟩
  | vector elements =>
    rw [dumpObject]
    exact ⟨_, _, rfl, hsharp _⟩
  | vectorUb8 elements =>
    rw [dumpObject]
    exact ⟨_, _, rfl, hsharp _⟩
  | vectorUb16 elements =>
    rw [dumpObject]
    exact ⟨_, _, rfl, hsharp _⟩
  | vectorUb32 elements =>
    rw [dumpObject]
    exact ⟨_, _, rfl, hsharp _⟩

/-- The text of a form is read as `readBack` says. -/
def ReadsObject (o : Object A S) : Prop :=
  ∀ charpos rest table fuel c text, dumpObject atoms name upcase o charpos = c :: text →
    Delimited rest → text.length < fuel →
    streamProcessChar atoms fuel c (text ++ rest) table =
      some ((readBack atoms name upcase o table).1, rest, (readBack atoms name upcase o table).2)

/-- The text of the rest of a list is read as `readBack` says. -/
def ReadsTail (o : Object A S) : Prop :=
  ∀ charpos rest table acc fuel, acc ≠ [] →
    (dumpTail atoms name upcase o charpos).length < fuel →
    streamReadList atoms fuel (dumpTail atoms name upcase o charpos ++ ')' :: rest) table acc
        (.atom atoms.nil) =
      some (listOf acc (readBack atoms name upcase o table).1, rest,
        (readBack atoms name upcase o table).2)

/-- The text of the elements of a vector is read as `readBack` says. -/
def ReadsElements (os : List (Object A S)) : Prop :=
  ∀ charpos rest table acc fuel,
    (dumpElements atoms name upcase os charpos).length < fuel →
    streamReadVector atoms fuel (acc.length + os.length)
        (dumpElements atoms name upcase os charpos ++ ')' :: rest) table acc =
      some (.vector (acc.reverse ++ (readBackList atoms name upcase os table).1), rest,
        (readBackList atoms name upcase os table).2)

variable {atoms name upcase} (hatoms : atoms.ReadsBack)

include hatoms

theorem readsElements {os : List (Object A S)}
    (h : ∀ o ∈ os, ReadsObject atoms name upcase o) : ReadsElements atoms name upcase os := by
  induction os with
  | nil =>
    intro charpos rest table acc fuel hfuel
    obtain ⟨fuel, rfl⟩ : ∃ n, fuel = n + 1 := ⟨fuel - 1, by omega⟩
    rw [dumpElements, List.nil_append, streamReadVector_paren rfl, List.length_nil,
      Nat.add_zero, fillVector_self]
    simp [readBackList]
  | cons o os ih =>
    have ih := ih fun x hx => h x (by simp [hx])
    intro charpos rest table acc fuel hfuel
    obtain ⟨fuel, rfl⟩ : ∃ n, fuel = n + 1 := ⟨fuel - 1, by omega⟩
    obtain ⟨c, text, ho, hstarts⟩ := starts_dumpObject atoms name upcase hatoms o charpos
    -- the first element, up to the text that follows it
    have hread : ∀ more, Delimited more → text.length < fuel →
        streamReadVector atoms (fuel + 1) (acc.length + (o :: os).length)
          (c :: (text ++ more)) table acc =
        streamReadVector atoms fuel
          (((readBack atoms name upcase o table).1 :: acc).length + os.length) more
          (readBack atoms name upcase o table).2
          ((readBack atoms name upcase o table).1 :: acc) := by
      intro more hmore hlen
      rw [streamReadVector_object (hstarts.dropWhile_eq _) (hstarts.append _),
        h o (by simp) _ _ _ _ _ _ ho hmore hlen]
      simp only [Option.bind_some, List.length_cons]
      congr 1
      omega
    have hresult : ((readBack atoms name upcase o table).1 :: acc).reverse ++
        (readBackList atoms name upcase os (readBack atoms name upcase o table).2).1 =
        acc.reverse ++ (readBackList atoms name upcase (o :: os) table).1 := by
      simp [readBackList]
    cases os with
    | nil =>
      rw [dumpElements, ho] at hfuel ⊢
      simp only [List.length_cons] at hfuel
      have hnil := ih 0 rest (readBack atoms name upcase o table).2
        ((readBack atoms name upcase o table).1 :: acc) fuel (by rw [dumpElements]; simp; omega)
      rw [dumpElements, List.nil_append, hresult] at hnil
      rw [List.cons_append, hread _ (delimited_paren rest) (by omega), hnil]
      rfl
    | cons o' os =>
      rw [dumpElements] at hfuel ⊢
      simp only [List.append_assoc, List.length_append, ho, List.length_cons,
        List.cons_append] at hfuel
      simp only [List.append_assoc, ho, List.cons_append]
      rw [hread _ (delimited_separator _ _) (by omega), streamReadVector_separator,
        ih _ rest _ _ fuel (by omega), hresult]
      rfl

theorem readsObject_vector {os : List (Object A S)}
    (h : ∀ o ∈ os, ReadsObject atoms name upcase o) :
    ReadsObject atoms name upcase (.vector os) := by
  intro charpos rest table fuel c text ho hrest hfuel
  rw [dumpObject] at ho
  simp only [vectorHead, List.cons_append, List.append_assoc, List.nil_append] at ho
  cases ho
  simp only [List.length_append, List.length_cons, List.length_nil] at hfuel
  have hdigits : 0 < (Nat.toDigits 10 os.length).length := Nat.length_toDigits_pos
  obtain ⟨fuel, rfl⟩ : ∃ n, fuel = n + 2 := ⟨fuel - 2, by omega⟩
  rw [streamProcessChar_sharp]
  simp only [List.append_assoc, List.cons_append, List.nil_append]
  rw [streamReadDispatchChar_vector]
  have helements := readsElements hatoms h
    (charposAfter charpos ('#' :: (Nat.toDigits 10 os.length ++ ['(']))) rest table [] fuel
    (by omega)
  rw [List.length_nil, Nat.zero_add] at helements
  rw [helements]
  simp [readBack]

omit hatoms in
theorem dumpIntegers_eq (ns : List ℕ) (charpos : ℕ) :
    dumpIntegers atoms ns charpos =
      dumpElements atoms name upcase (ns.map fun n => .atom (atoms.integer n)) charpos := by
  induction ns generalizing charpos with
  | nil => rw [dumpIntegers, List.map_nil, dumpElements]
  | cons n ns ih =>
    cases ns with
    | nil => rw [dumpIntegers, List.map_cons, List.map_nil, dumpElements, dumpObject]
    | cons m ns =>
      rw [dumpIntegers, List.map_cons, List.map_cons, dumpElements, ih, dumpObject]
      rfl

omit hatoms in
theorem dumpVectorIntegers_eq (ns : List ℕ) (charpos : ℕ) :
    dumpVectorIntegers atoms ns charpos =
      dumpObject atoms name upcase (.vector (ns.map fun n => .atom (atoms.integer n))) charpos := by
  rw [dumpObject, dumpVectorIntegers, @dumpIntegers_eq A S _ atoms name upcase,
    List.length_map]

theorem readsObject_atom (a : A) : ReadsObject atoms name upcase (.atom a) := by
  intro charpos rest table fuel c text ho hrest hfuel
  rw [dumpObject] at ho
  exact streamProcessChar_print hatoms ho hrest hfuel

omit hatoms [DecidableEq A] in
theorem readBackList_integers (ns : List ℕ) (table : Table) :
    readBackList atoms name upcase (ns.map fun n => .atom (atoms.integer n)) table =
      (integers atoms ns, table) := by
  induction ns with
  | nil => rfl
  | cons n ns ih =>
    rw [List.map_cons, readBackList, readBack]
    simp only [ih]
    rfl

theorem streamProcessChar_dumpVectorIntegers {ns : List ℕ} {charpos : ℕ}
    (ho : dumpVectorIntegers atoms ns charpos = c :: text) (hrest : Delimited rest)
    (hfuel : text.length < fuel) :
    streamProcessChar atoms fuel c (text ++ rest) table =
      some (.vector (integers atoms ns), rest, table) := by
  let name : Empty → List Char := Empty.elim
  have hvector : ReadsObject atoms name true
      (.vector (ns.map fun n => .atom (atoms.integer n))) := by
    apply readsObject_vector hatoms
    intro o hmem
    obtain ⟨n, -, rfl⟩ := List.mem_map.mp hmem
    exact readsObject_atom hatoms _
  rw [@dumpVectorIntegers_eq A Empty _ atoms name true] at ho
  rw [hvector _ rest table fuel c text ho hrest hfuel, readBack, readBackList_integers]

omit hatoms in
variable (name upcase) in
theorem dumpTail_dotted {o : Object A S} (hcons : ∀ x y, o ≠ .cons x y)
    (hnil : o ≠ .atom atoms.nil) (charpos : ℕ) :
    ∃ n, dumpTail atoms name upcase o charpos =
      separator charpos ++ '.' :: ' ' :: dumpObject atoms name upcase o n := by
  cases o with
  | cons x y => exact absurd rfl (hcons x y)
  | atom a =>
    have ha : a ≠ atoms.nil := fun he => hnil (by rw [he])
    rw [dumpTail, if_neg ha]
    exact ⟨_, by rw [List.append_assoc]; rfl⟩
  | _ =>
    rw [dumpTail]
    · exact ⟨_, by rw [List.append_assoc]; rfl⟩
    · rintro _ _ ⟨⟩
    · rintro _ ⟨⟩

omit hatoms in
theorem delimited_dumpTail (o : Object A S) (charpos : ℕ) (rest : List Char) :
    Delimited (dumpTail atoms name upcase o charpos ++ ')' :: rest) := by
  by_cases hcons : ∃ x y, o = .cons x y
  · obtain ⟨x, y, rfl⟩ := hcons
    rw [dumpTail]
    simp only [List.append_assoc]
    exact delimited_separator _ _
  · by_cases hnil : o = .atom atoms.nil
    · rw [hnil, dumpTail, if_pos rfl]
      exact delimited_paren rest
    · obtain ⟨n, hn⟩ := dumpTail_dotted name upcase
        (fun x y he => hcons ⟨x, y, he⟩) hnil charpos
      rw [hn, List.append_assoc]
      exact delimited_separator _ _

omit hatoms in
theorem readsTail_nil : ReadsTail atoms name upcase (.atom atoms.nil) := by
  intro charpos rest table acc fuel hacc hfuel
  obtain ⟨fuel, rfl⟩ : ∃ n, fuel = n + 1 := ⟨fuel - 1, by omega⟩
  rw [dumpTail, if_pos rfl, List.nil_append, streamReadList_paren rfl]
  rfl

theorem readsTail_dotted {o : Object A S} (h : ReadsObject atoms name upcase o)
    (hcons : ∀ x y, o ≠ .cons x y) (hnil : o ≠ .atom atoms.nil) :
    ReadsTail atoms name upcase o := by
  intro charpos rest table acc fuel hacc hfuel
  obtain ⟨n, hn⟩ := dumpTail_dotted name upcase hcons hnil charpos
  obtain ⟨c, text, ho, hstarts⟩ := starts_dumpObject atoms name upcase hatoms o n
  rw [hn, ho] at hfuel ⊢
  simp only [List.length_append, List.length_cons] at hfuel
  obtain ⟨fuel, rfl⟩ : ∃ n, fuel = n + 2 := ⟨fuel - 2, by omega⟩
  rw [List.append_assoc, streamReadList_separator, List.cons_append, List.cons_append,
    List.cons_append, streamReadList_dot rfl hacc,
    streamRead_of_starts (hstarts.dropWhile_space _),
    h n _ table _ c text ho (delimited_paren rest) (by omega)]
  simp only [Option.bind_some]
  rw [streamReadList_paren rfl]

theorem readsTail_cons {x y : Object A S} (hx : ReadsObject atoms name upcase x)
    (hy : ReadsTail atoms name upcase y) : ReadsTail atoms name upcase (.cons x y) := by
  intro charpos rest table acc fuel hacc hfuel
  rw [dumpTail] at hfuel ⊢
  obtain ⟨c, text, ho, hstarts⟩ := starts_dumpObject atoms name upcase hatoms x
    (charposAfter charpos (separator charpos))
  simp only [ho, List.length_append, List.length_cons] at hfuel
  obtain ⟨fuel, rfl⟩ : ∃ n, fuel = n + 1 := ⟨fuel - 1, by omega⟩
  simp only [ho, List.append_assoc, List.cons_append]
  rw [streamReadList_separator, streamReadList_object (hstarts.dropWhile_eq _) (hstarts.append _),
    hx _ _ table _ c text ho (delimited_dumpTail y _ rest) (by omega)]
  simp only [Option.bind_some]
  rw [hy _ rest _ _ fuel (List.cons_ne_nil _ _) (by omega)]
  simp [readBack, listOf]

theorem readsObject_list {x y : Object A S} (hquoted : quotedForm atoms x y = none)
    (hx : ReadsObject atoms name upcase x) (hy : ReadsTail atoms name upcase y) :
    ReadsObject atoms name upcase (.cons x y) := by
  intro charpos rest table fuel c text ho hrest hfuel
  rw [dumpObject] at ho
  split at ho
  · rename_i z hz
    rw [hquoted] at hz
    cases hz
  · obtain ⟨d, text', ho', hstarts⟩ := starts_dumpObject atoms name upcase hatoms x (charpos + 1)
    simp only [ho', List.cons_append, List.append_assoc] at ho
    cases ho
    simp only [List.length_append, List.length_cons] at hfuel
    obtain ⟨fuel, rfl⟩ : ∃ n, fuel = n + 2 := ⟨fuel - 2, by omega⟩
    simp only [List.cons_append, List.append_assoc, List.nil_append]
    rw [streamProcessChar_paren, streamReadList_object (hstarts.dropWhile_eq _) (hstarts.append _),
      hx _ _ table _ d text' ho' (delimited_dumpTail y _ rest) (by omega)]
    simp only [Option.bind_some]
    rw [hy _ rest _ _ fuel (List.cons_ne_nil _ _) (by omega)]
    simp [readBack, listOf]

theorem readsObject_quote {x y z : Object A S} (hquoted : quotedForm atoms x y = some z)
    (hz : ReadsObject atoms name upcase z) : ReadsObject atoms name upcase (.cons x y) := by
  obtain ⟨rfl, rfl⟩ := quotedForm_eq_some atoms hquoted
  intro charpos rest table fuel c text ho hrest hfuel
  rw [dumpObject] at ho
  split at ho
  · rename_i w hw
    rw [hquoted] at hw
    cases hw
    obtain ⟨d, text', ho', hstarts⟩ := starts_dumpObject atoms name upcase hatoms z (charpos + 1)
    rw [ho'] at ho
    cases ho
    simp only [List.length_cons] at hfuel
    obtain ⟨fuel, rfl⟩ : ∃ n, fuel = n + 1 := ⟨fuel - 1, by omega⟩
    rw [streamProcessChar_quote, List.cons_append,
      streamRead_of_starts (hstarts.dropWhile_eq _), hz _ rest table _ d text' ho' hrest (by omega)]
    simp [readBack]
  · rename_i hw
    rw [hquoted] at hw
    cases hw

omit hatoms in
theorem readsObject_vectorUb8 (bytes : List UInt8) :
    ReadsObject atoms name upcase (.vectorUb8 bytes) := by
  intro charpos rest table fuel c text ho hrest hfuel
  rw [dumpObject] at ho
  simp only [vectorHead, List.cons_append, List.append_assoc, List.nil_append] at ho
  cases ho
  simp only [List.length_append, List.length_cons] at hfuel
  obtain ⟨fuel, rfl⟩ : ∃ n, fuel = n + 2 := ⟨fuel - 2, by
    have : 0 < (Nat.toDigits 10 bytes.length).length := Nat.length_toDigits_pos
    omega⟩
  rw [streamProcessChar_sharp, List.append_assoc, List.cons_append,
    streamReadDispatchChar_percent, streamReadBinaryData_append]
  rfl

/-- **The text of a form is read as `readBack` says, when the names of its symbols can be read.** -/
theorem readsObject_and_tail (o : Object A S) :
    (∀ s ∈ o.symbols, Readable upcase (name s)) →
      ReadsObject atoms name upcase o ∧ ReadsTail atoms name upcase o := by
  -- by the size of the form: the object under a quote is not its car or cdr
  induction hn : sizeOf o using Nat.strong_induction_on generalizing o with
  | _ n ih =>
    intro hread
    subst hn
    cases o with
    | atom a =>
      refine ⟨readsObject_atom hatoms a, ?_⟩
      by_cases ha : a = atoms.nil
      · rw [ha]
        exact readsTail_nil
      · exact readsTail_dotted hatoms (readsObject_atom hatoms a) (by simp) (by simpa using ha)
    | uninterned s =>
      have hobj : ReadsObject atoms name upcase (.uninterned s) := by
        intro charpos rest table fuel c text ho hrest hfuel
        rw [dumpObject] at ho
        exact streamProcessChar_writeUninterned atoms (hread s (by simp [Object.symbols])) ho
          hrest hfuel
      exact ⟨hobj, readsTail_dotted hatoms hobj (by simp) (by simp)⟩
    | cons x y =>
      have hx := ih (sizeOf x) (by simp; omega) x rfl fun s hs =>
        hread s (by simp [Object.symbols, hs])
      have hy := ih (sizeOf y) (by simp) y rfl fun s hs => hread s (by simp [Object.symbols, hs])
      refine ⟨?_, readsTail_cons hatoms hx.1 hy.2⟩
      cases hquoted : quotedForm atoms x y with
      | none => exact readsObject_list hatoms hquoted hx.1 hy.2
      | some z =>
        obtain ⟨rfl, rfl⟩ := quotedForm_eq_some atoms hquoted
        have hz := ih (sizeOf z) (by simp; omega) z rfl
          fun s hs => hread s (by simp [Object.symbols, hs])
        exact readsObject_quote hatoms hquoted hz.1
    | vector os =>
      have hobj : ReadsObject atoms name upcase (.vector os) := by
        apply readsObject_vector hatoms
        intro o ho
        have hlt := List.sizeOf_lt_of_mem ho
        refine (ih (sizeOf o) (by simp; omega) o rfl fun s hs => hread s ?_).1
        rw [Object.symbols]
        exact mem_symbolsList.mpr ⟨o, ho, hs⟩
      exact ⟨hobj, readsTail_dotted hatoms hobj (by simp) (by simp)⟩
    | vectorUb8 bytes =>
      exact ⟨readsObject_vectorUb8 bytes,
        readsTail_dotted hatoms (readsObject_vectorUb8 bytes) (by simp) (by simp)⟩
    | vectorUb16 ns =>
      have hobj : ReadsObject atoms name upcase (.vectorUb16 ns) := by
        intro charpos rest table fuel c text ho hrest hfuel
        rw [dumpObject] at ho
        exact streamProcessChar_dumpVectorIntegers hatoms ho hrest hfuel
      exact ⟨hobj, readsTail_dotted hatoms hobj (by simp) (by simp)⟩
    | vectorUb32 ns =>
      have hobj : ReadsObject atoms name upcase (.vectorUb32 ns) := by
        intro charpos rest table fuel c text ho hrest hfuel
        rw [dumpObject] at ho
        exact streamProcessChar_dumpVectorIntegers hatoms ho hrest hfuel
      exact ⟨hobj, readsTail_dotted hatoms hobj (by simp) (by simp)⟩

end ReadBack

end Reader

end Xcl.DumpForm
