import Mathlib
import Xcl.DumpForm.Read

/-!
# Trees survive printing and reading

* `writeToString`: the printer of conses and strings; the text of an atom is a parameter;
* **`reads_writeToString`**: a tree is read back if each of its atoms is.
-/

namespace Xcl.Trees

open DumpForm (isWhitespace isDelimiter Delimited delimited_paren)

/-- The printed objects. Everything but conses and strings is an atom. -/
inductive Tree (A : Type)
  | atom (a : A)
  | string (chars : List Char)
  | cons (car cdr : Tree A)

/-- The atoms, and the part of the reader that reads them. -/
structure Atoms (A : Type) where
  nil : A
  quote : A
  function : A
  print : A → List Char
  other : Char → List Char → Option (Tree A × List Char)

variable {A : Type}

def Tree.atoms : Tree A → List A
  | atom a => [a]
  | string _ => []
  | cons car cdr => car.atoms ++ cdr.atoms

/-! ## The printer -/

section Printer

variable [DecidableEq A] (P : Atoms A)

/-- The prefix of a list of `QUOTE` or `FUNCTION` and an object, with the object. -/
def quoted : Tree A → Tree A → Option (List Char × Tree A)
  | .atom q, .cons x (.atom n) =>
    if n = P.nil then
      if q = P.quote then some (['\''], x)
      else if q = P.function then some (['#', '\''], x)
      else none
    else none
  | _, _ => none

theorem quoted_eq_some {car cdr x : Tree A} {text : List Char}
    (h : quoted P car cdr = some (text, x)) : cdr = .cons x (.atom P.nil) ∧
      (car = .atom P.quote ∧ text = ['\''] ∨ car = .atom P.function ∧ text = ['#', '\'']) := by
  unfold quoted at h
  split at h
  · split_ifs at h with hnil hquote hfunction
    · cases h
      exact ⟨by rw [hnil], Or.inl ⟨by rw [hquote], rfl⟩⟩
    · cases h
      exact ⟨by rw [hnil], Or.inr ⟨by rw [hfunction], rfl⟩⟩
  · cases h

/-- The loop of `SimpleString::write_to_string`, with `*PRINT-ESCAPE*`. -/
def escapeString : List Char → List Char
  | [] => []
  | c :: chars =>
    if c = '"' ∨ c = '\\' then '\\' :: c :: escapeString chars else c :: escapeString chars

mutual

/-- `Cons::write_to_string` and `SimpleString::write_to_string` -/
def writeToString : Tree A → List Char
  | .atom a => P.print a
  | .string chars => '"' :: escapeString chars ++ ['"']
  | .cons car cdr =>
    match h : quoted P car cdr with
    | some (text, x) =>
      have : sizeOf x < sizeOf cdr := by
        rw [(quoted_eq_some P h).1]
        simp
      text ++ writeToString x
    | none => '(' :: writeToString car ++ writeTail cdr ++ [')']
termination_by t => (sizeOf t, 0)

/-- The loop over the conses, and the end of a dotted list. -/
def writeTail : Tree A → List Char
  | .cons car cdr => ' ' :: writeToString car ++ writeTail cdr
  | .atom a => if a = P.nil then [] else [' ', '.', ' '] ++ writeToString (.atom a)
  | .string chars => [' ', '.', ' '] ++ writeToString (.string chars)
termination_by t => (sizeOf t, 1)

end

end Printer

/-! ## The reader -/

def streamReadString : List Char → Option (List Char × List Char)
  | [] => none
  | ['\\'] => none
  | '\\' :: c :: text => (streamReadString text).map fun (chars, rest) => (c :: chars, rest)
  | c :: text =>
    if c = '"' then some ([], text)
    else (streamReadString text).map fun (chars, rest) => (c :: chars, rest)

/-- The list of the objects in front of a tail; the objects come in reverse order. -/
def listOf (acc : List (Tree A)) (tail : Tree A) : Tree A := acc.foldl (fun l x => .cons x l) tail

section Reader

variable (P : Atoms A)

/-- `stream_read_preserving_whitespace`, with the function for the first character. -/
def skipWhitespace (processChar : Char → List Char → Option (Tree A × List Char))
    (text : List Char) : Option (Tree A × List Char) :=
  match text.dropWhile isWhitespace with
  | [] => none
  | c :: rest => processChar c rest

mutual

/-- `stream_process_char`. A lone dot and a right parenthesis are errors here. -/
def streamProcessChar : ℕ → Char → List Char → Option (Tree A × List Char)
  | 0, _, _ => none
  | fuel + 1, c, text =>
    if c = '(' then streamReadList fuel text [] (.atom P.nil)
    else if c = ')' ∨ c = '.' ∧ text.head?.all isDelimiter then none
    else if c = '"' then (streamReadString text).map fun (chars, rest) => (.string chars, rest)
    else if c = '\'' then
      (skipWhitespace (streamProcessChar fuel) text).map fun (x, rest) =>
        (.cons (.atom P.quote) (.cons x (.atom P.nil)), rest)
    else if c = '#' ∧ text.head? = some '\'' then
      (skipWhitespace (streamProcessChar fuel) text.tail).map fun (x, rest) =>
        (.cons (.atom P.function) (.cons x (.atom P.nil)), rest)
    else P.other c text

/-- `stream_read_list`: `acc` are the objects that were read, `tail` the object after a dot. -/
def streamReadList :
    ℕ → List Char → List (Tree A) → Tree A → Option (Tree A × List Char)
  | 0, _, _, _ => none
  | fuel + 1, text, acc, tail =>
    match text.dropWhile isWhitespace with
    | [] => none
    | c :: rest =>
      if c = ')' then some (listOf acc tail, rest)
      else if c = '.' ∧ rest = [] then none
      else if c = '.' ∧ rest.head?.any isDelimiter then
        if acc.isEmpty then none
        else
          (skipWhitespace (streamProcessChar fuel) rest).bind fun (x, rest) =>
            streamReadList fuel rest acc x
      else
        (streamProcessChar fuel c rest).bind fun (x, rest) =>
          streamReadList fuel rest (x :: acc) (.atom P.nil)

end

def streamRead (fuel : ℕ) : List Char → Option (Tree A × List Char) :=
  skipWhitespace (streamProcessChar P fuel)

/-- The text is read as an object, and nothing of what follows is read. -/
def ReadsAs (text : List Char) (t : Tree A) : Prop :=
  ∀ rest, Delimited rest → ∃ rounds, ∀ fuel ≥ rounds, streamRead P fuel (text ++ rest) =
    some (t, rest)

end Reader

/-! ## The round trip -/

section RoundTrip

variable {P : Atoms A} {c : Char} {text rest : List Char} {x y z : Tree A} {acc : List (Tree A)}
  {fuel : ℕ}

theorem dropWhile_space (text : List Char) :
    (' ' :: text).dropWhile isWhitespace = text.dropWhile isWhitespace :=
  List.dropWhile_cons_of_pos (by decide)

theorem streamRead_cons (hc : isWhitespace c = false) :
    streamRead P fuel (c :: text) = streamProcessChar P fuel c text := by
  rw [streamRead, skipWhitespace, List.dropWhile_cons_of_neg (by simp [hc])]

/-- An object begins with a character that the loop over the elements hands on. -/
theorem exists_of_skipWhitespace
    (h : skipWhitespace (streamProcessChar P fuel) text = some (x, rest)) :
    ∃ c text', text.dropWhile isWhitespace = c :: text' ∧ c ≠ ')' ∧
      ¬(c = '.' ∧ text'.head?.all isDelimiter = true) ∧
      streamProcessChar P fuel c text' = some (x, rest) := by
  rw [skipWhitespace] at h
  cases hdrop : text.dropWhile isWhitespace with
  | nil =>
    rw [hdrop] at h
    cases h
  | cons c text' =>
    rw [hdrop] at h
    change streamProcessChar P fuel c text' = some (x, rest) at h
    have hrejected : ¬(c = ')' ∨ c = '.' ∧ text'.head?.all isDelimiter = true) := by
      intro hc
      have hparen : c ≠ '(' := by rcases hc with rfl | ⟨rfl, -⟩ <;> decide
      cases fuel with
      | zero =>
        rw [streamProcessChar] at h
        cases h
      | succ fuel =>
        rw [streamProcessChar, if_neg hparen, if_pos hc] at h
        cases h
    exact ⟨c, text', rfl, fun hc => hrejected (Or.inl hc), fun hc => hrejected (Or.inr hc), h⟩

theorem streamReadList_paren (fuel : ℕ) (acc : List (Tree A)) (tail : Tree A)
    (rest : List Char) :
    streamReadList P (fuel + 1) (')' :: rest) acc tail = some (listOf acc tail, rest) := by
  rw [streamReadList]
  rfl

theorem streamReadList_object (tail : Tree A)
    (h : streamRead P fuel text = some (x, rest)) :
    streamReadList P (fuel + 1) text acc tail =
      streamReadList P fuel rest (x :: acc) (.atom P.nil) := by
  obtain ⟨c, text', hdrop, hparen, hdot, hread⟩ := exists_of_skipWhitespace h
  have hend : ¬(c = '.' ∧ text' = []) := by
    rintro ⟨hc, rfl⟩
    exact hdot ⟨hc, rfl⟩
  have hlone : ¬(c = '.' ∧ text'.head?.any isDelimiter = true) := by
    rintro ⟨hc, hany⟩
    refine hdot ⟨hc, ?_⟩
    cases text' with
    | nil => rfl
    | cons d text' => exact hany
  rw [streamReadList, hdrop]
  simp only [if_neg hparen, if_neg hend, if_neg hlone, hread]
  rfl

theorem streamReadList_space (fuel : ℕ) (text : List Char) (acc : List (Tree A))
    (tail : Tree A) :
    streamReadList P fuel (' ' :: text) acc tail = streamReadList P fuel text acc tail := by
  cases fuel with
  | zero => rw [streamReadList, streamReadList]
  | succ fuel => rw [streamReadList, streamReadList, dropWhile_space]

theorem streamReadList_dot (hacc : acc ≠ []) (tail : Tree A)
    (h : streamRead P fuel text = some (x, rest)) :
    streamReadList P (fuel + 1) ('.' :: ' ' :: text) acc tail =
      streamReadList P fuel rest acc x := by
  have hread : skipWhitespace (streamProcessChar P fuel) (' ' :: text) = some (x, rest) := by
    rw [skipWhitespace, dropWhile_space]
    exact h
  have hdrop : ('.' :: ' ' :: text).dropWhile isWhitespace = '.' :: ' ' :: text := rfl
  have hempty : ¬acc.isEmpty = true := by simpa using hacc
  rw [streamReadList, hdrop]
  simp only [if_neg hempty, hread]
  rfl

theorem streamReadString_escapeString (chars rest : List Char) :
    streamReadString (escapeString chars ++ '"' :: rest) = some (chars, rest) := by
  induction chars with
  | nil => rfl
  | cons c chars ih =>
    rw [escapeString]
    split
    · rw [List.cons_append, List.cons_append, streamReadString, ih]
      rfl
    · rename_i hc
      rw [not_or] at hc
      rw [List.cons_append]
      unfold streamReadString
      split
      · simp_all
      · simp_all
      · simp_all
      · rename_i heq
        cases heq
        rw [if_neg hc.1, ih]
        rfl

variable [DecidableEq A]

/-- The rest of a list is read up to the right parenthesis. -/
def ReadsTail (P : Atoms A) (t : Tree A) : Prop :=
  ∀ rest acc, acc ≠ [] → ∃ rounds, ∀ fuel ≥ rounds,
    streamReadList P fuel (writeTail P t ++ ')' :: rest) acc (.atom P.nil) =
      some (listOf acc t, rest)

theorem delimited_writeTail (t : Tree A) (rest : List Char) :
    Delimited (writeTail P t ++ ')' :: rest) := by
  have hspace : ∀ text, Delimited (' ' :: text) := fun text c hc => by
    rw [List.head?_cons, Option.mem_some] at hc
    exact Or.inl (by rw [← hc]; decide)
  cases t with
  | atom a =>
    rw [writeTail]
    split
    · exact delimited_paren rest
    · exact hspace _
  | string chars =>
    rw [writeTail]
    exact hspace _
  | cons car cdr =>
    rw [writeTail]
    exact hspace _

theorem readsAs_string (chars : List Char) : ReadsAs P (writeToString P (.string chars))
    (.string chars) := by
  intro rest _
  refine ⟨1, fun fuel hfuel => ?_⟩
  obtain ⟨fuel, rfl⟩ : ∃ n, fuel = n + 1 := ⟨fuel - 1, by omega⟩
  have htext : writeToString P (.string chars) ++ rest =
      '"' :: (escapeString chars ++ '"' :: rest) := by
    rw [writeToString]
    simp
  rw [htext, streamRead_cons (by decide), streamProcessChar]
  simp only [streamReadString_escapeString]
  rfl

theorem readsTail_dotted {t : Tree A}
    (htext : writeTail P t = [' ', '.', ' '] ++ writeToString P t)
    (h : ReadsAs P (writeToString P t) t) : ReadsTail P t := by
  intro rest acc hacc
  obtain ⟨rounds, hread⟩ := h (')' :: rest) (delimited_paren rest)
  refine ⟨rounds + 2, fun fuel hfuel => ?_⟩
  obtain ⟨fuel, rfl⟩ : ∃ n, fuel = n + 2 := ⟨fuel - 2, by omega⟩
  rw [htext, List.append_assoc, List.cons_append, streamReadList_space]
  exact (streamReadList_dot hacc _ (hread (fuel + 1) (by omega))).trans
    (streamReadList_paren fuel acc t rest)

theorem readsTail_cons (hx : ReadsAs P (writeToString P x) x) (hy : ReadsTail P y) :
    ReadsTail P (.cons x y) := by
  intro rest acc _
  obtain ⟨rounds, hread⟩ := hx _ (delimited_writeTail y rest)
  obtain ⟨rounds', htail⟩ := hy rest (x :: acc) (List.cons_ne_nil _ _)
  refine ⟨max rounds rounds' + 1, fun fuel hfuel => ?_⟩
  obtain ⟨fuel, rfl⟩ : ∃ n, fuel = n + 1 := ⟨fuel - 1, by omega⟩
  rw [writeTail, List.cons_append, List.cons_append, List.append_assoc, streamReadList_space,
    streamReadList_object _ (hread fuel (by omega)), htail fuel (by omega)]
  rfl

theorem readsAs_list (hquoted : quoted P x y = none) (hx : ReadsAs P (writeToString P x) x)
    (hy : ReadsTail P y) : ReadsAs P (writeToString P (.cons x y)) (.cons x y) := by
  intro rest _
  obtain ⟨rounds, hread⟩ := hx _ (delimited_writeTail y rest)
  obtain ⟨rounds', htail⟩ := hy rest [x] (List.cons_ne_nil _ _)
  refine ⟨max rounds rounds' + 2, fun fuel hfuel => ?_⟩
  obtain ⟨fuel, rfl⟩ : ∃ n, fuel = n + 2 := ⟨fuel - 2, by omega⟩
  have htext : writeToString P (.cons x y) ++ rest =
      '(' :: (writeToString P x ++ (writeTail P y ++ ')' :: rest)) := by
    rw [writeToString]
    split
    · rename_i hsome
      rw [hquoted] at hsome
      cases hsome
    · simp
  have hopen : streamRead P (fuel + 2) ('(' :: (writeToString P x ++
      (writeTail P y ++ ')' :: rest))) = streamReadList P (fuel + 1)
        (writeToString P x ++ (writeTail P y ++ ')' :: rest)) [] (.atom P.nil) := by
    rw [streamRead_cons (by decide), streamProcessChar]
    rfl
  rw [htext, hopen, streamReadList_object _ (hread fuel (by omega)), htail fuel (by omega)]
  rfl

theorem readsAs_quoted (hquoted : quoted P x y = some (text, z))
    (hz : ReadsAs P (writeToString P z) z) :
    ReadsAs P (writeToString P (.cons x y)) (.cons x y) := by
  intro rest hrest
  obtain ⟨rounds, hread⟩ := hz rest hrest
  refine ⟨rounds + 1, fun fuel hfuel => ?_⟩
  obtain ⟨fuel, rfl⟩ : ∃ n, fuel = n + 1 := ⟨fuel - 1, by omega⟩
  have hread : skipWhitespace (streamProcessChar P fuel) (writeToString P z ++ rest) =
      some (z, rest) := hread fuel (by omega)
  have htext : writeToString P (.cons x y) ++ rest = text ++ (writeToString P z ++ rest) := by
    rw [writeToString]
    split
    · rename_i hsome
      rw [hquoted] at hsome
      cases hsome
      exact List.append_assoc _ _ _
    · rename_i hnone
      rw [hquoted] at hnone
      cases hnone
  obtain ⟨rfl, ⟨rfl, rfl⟩ | ⟨rfl, rfl⟩⟩ := quoted_eq_some P hquoted
  all_goals
    rw [htext, List.cons_append, streamRead_cons (by decide), streamProcessChar]
    simp [hread]

/-- **Trees survive printing and reading** if their atoms do. -/
theorem reads_writeToString (t : Tree A)
    (h : ∀ a ∈ t.atoms, ReadsAs P (P.print a) (.atom a)) : ReadsAs P (writeToString P t) t := by
  have hboth : ReadsAs P (writeToString P t) t ∧ ReadsTail P t := by
    -- by the size of the tree: the object under a quote is not its car or cdr
    induction hn : sizeOf t using Nat.strong_induction_on generalizing t with
    | _ n ih =>
      subst hn
      cases t with
      | atom a =>
        have hread : ReadsAs P (writeToString P (.atom a)) (.atom a) := by
          rw [writeToString]
          exact h a List.mem_cons_self
        refine ⟨hread, ?_⟩
        by_cases ha : a = P.nil
        · intro rest acc _
          refine ⟨1, fun fuel hfuel => ?_⟩
          obtain ⟨fuel, rfl⟩ : ∃ n, fuel = n + 1 := ⟨fuel - 1, by omega⟩
          rw [writeTail, if_pos ha, ha]
          exact streamReadList_paren fuel acc _ rest
        · exact readsTail_dotted (by rw [writeTail, if_neg ha]) hread
      | string chars =>
        exact ⟨readsAs_string chars, readsTail_dotted (by rw [writeTail]) (readsAs_string chars)⟩
      | cons x y =>
        have hx := ih (sizeOf x) (by simp; omega) x
          (fun a ha => h a (List.mem_append_left _ ha)) rfl
        have hy := ih (sizeOf y) (by simp) y (fun a ha => h a (List.mem_append_right _ ha)) rfl
        refine ⟨?_, readsTail_cons hx.1 hy.2⟩
        cases hquoted : quoted P x y with
        | none => exact readsAs_list hquoted hx.1 hy.2
        | some r =>
          obtain ⟨text, z⟩ := r
          have hz := ih (sizeOf z) (by rw [(quoted_eq_some P hquoted).1]; simp; omega) z
            (fun a ha => h a (List.mem_append_right _ (by
              rw [(quoted_eq_some P hquoted).1]
              exact List.mem_append_left _ ha))) rfl
          exact readsAs_quoted hquoted hz.1
  exact hboth.1

end RoundTrip

/-- Symbols with names in upper case, which are printed as their names. -/
def symbols : Atoms (List Char) where
  nil := ['N', 'I', 'L']
  quote := ['Q', 'U', 'O', 'T', 'E']
  function := ['F', 'U', 'N', 'C', 'T', 'I', 'O', 'N']
  print := id
  other c text := some (.atom ((c :: text).takeWhile (!isDelimiter ·)),
    (c :: text).dropWhile (!isDelimiter ·))

theorem readsAs_symbol {name : List Char} (hne : name ≠ [])
    (hname : ∀ c ∈ name, c.isUpper = true) : ReadsAs symbols name (.atom name) := by
  intro rest hrest
  obtain ⟨c, text, rfl⟩ := List.exists_cons_of_ne_nil hne
  have hdelimiter : ∀ d ∈ c :: text, (!isDelimiter d) = true := by
    intro d hd
    have hupper : ∀ e ∈ ['"', '\'', '(', ')', ',', ';', Char.ofNat 96, '\t', '\n',
        DumpForm.formFeed, '\r', ' '], ¬e.isUpper = true := by
      simp [DumpForm.formFeed, Char.isUpper]
    rw [Bool.not_eq_true', Bool.eq_false_iff]
    refine fun hdel => hupper d ?_ (hname d hd)
    simpa [isDelimiter, DumpForm.isTerminating, isWhitespace, or_assoc] using hdel
  have hother : ∀ e : Char, e.isUpper = false → c ≠ e := by
    rintro e he rfl
    rw [hname c List.mem_cons_self] at he
    cases he
  have hend : rest.takeWhile (!isDelimiter ·) = [] ∧ rest.dropWhile (!isDelimiter ·) = rest := by
    cases rest with
    | nil => exact ⟨rfl, rfl⟩
    | cons d rest =>
      have hd := (DumpForm.isDelimiter_of_delimited (hrest d rfl)).1
      exact ⟨List.takeWhile_cons_of_neg (by simp [hd]), List.dropWhile_cons_of_neg (by simp [hd])⟩
  have hspace : isWhitespace c = false := by
    have := hdelimiter c List.mem_cons_self
    simp only [isDelimiter, Bool.not_or, Bool.and_eq_true, Bool.not_eq_true'] at this
    exact this.2
  refine ⟨1, fun fuel hfuel => ?_⟩
  obtain ⟨fuel, rfl⟩ : ∃ n, fuel = n + 1 := ⟨fuel - 1, by omega⟩
  rw [List.cons_append, streamRead_cons hspace, streamProcessChar, if_neg (hother _ (by decide)),
    if_neg (by simp [hother ')' (by decide), hother '.' (by decide)]),
    if_neg (hother _ (by decide)), if_neg (hother _ (by decide)),
    if_neg (by simp [hother '#' (by decide)]), symbols]
  simp only [← List.cons_append, List.takeWhile_append_of_pos hdelimiter,
    List.dropWhile_append_of_pos hdelimiter, hend, List.append_nil]

/-- `'(A . "\"")` -/
theorem reads_writeToString_quoted :
    let t : Tree (List Char) := .cons (.atom symbols.quote)
      (.cons (.cons (.atom ['A']) (.string ['"'])) (.atom symbols.nil))
    ReadsAs symbols (writeToString symbols t) t := by
  refine reads_writeToString _ fun a ha => ?_
  have hname : ∀ a ∈ [symbols.quote, ['A'], symbols.nil], a ≠ [] ∧ ∀ c ∈ a, c.isUpper = true := by
    simp [symbols, Char.isUpper]
  exact readsAs_symbol (hname a ha).1 (hname a ha).2

end Xcl.Trees
